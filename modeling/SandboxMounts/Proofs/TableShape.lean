import Mathlib.Data.List.DropRight
import SandboxMounts.MountTable
import SandboxMounts.Proofs.Spelling

/-!
The shape of a mount table: where its lines and their fields begin and end, said without a word about
how they are found. Each content has one cut into lines, and each line one into fields.
-/

set_option autoImplicit false

namespace SandboxMounts

theorem Bytes.clean_or_cut (sep : UInt8 → Bool) (bs : Bytes) :
    (∀ b ∈ bs, sep b = false) ∨
      ∃ s x rest, bs = s ++ x :: rest ∧ (∀ b ∈ s, sep b = false) ∧ sep x = true := by
  cases hf : bs.find? sep with
  | none => exact .inl (by simpa using List.find?_eq_none.1 hf)
  | some x =>
    obtain ⟨hx, s, rest, hbs, hs⟩ := List.find?_eq_some_iff_append.1 hf
    exact .inr ⟨s, x, rest, hbs, by simpa using hs, hx⟩

namespace MountTable

/-- The content cut after each line feed; a rest without one is a line if it is not empty. -/
inductive Lines : Bytes → List Bytes → Prop
  | nil : Lines [] []
  | rest {line : Bytes} (hne : line ≠ []) (hl : lineFeed ∉ line) : Lines line [line]
  | feed {line content : Bytes} {ls : List Bytes} (hl : lineFeed ∉ line) (h : Lines content ls) :
    Lines (line ++ lineFeed :: content) ((line ++ [lineFeed]) :: ls)

/-- The longest runs of bytes that are not blanks, in order. -/
inductive Runs : Bytes → List Bytes → Prop
  | nil : Runs [] []
  | blank {b : UInt8} {rest : Bytes} {fs : List Bytes} (hb : isBlank b = true) (h : Runs rest fs) :
    Runs (b :: rest) fs
  | last {f : Bytes} (hne : f ≠ []) (hf : ∀ b ∈ f, isBlank b = false) : Runs f [f]
  | run {f rest : Bytes} {b : UInt8} {fs : List Bytes} (hne : f ≠ []) (hf : ∀ b ∈ f, isBlank b = false)
    (hb : isBlank b = true) (h : Runs rest fs) : Runs (f ++ b :: rest) (f :: fs)

structure IsTrimmed (line kept : Bytes) : Prop where
  blanks : ∃ end', line = kept ++ end' ∧ ∀ b ∈ end', isBlank b = true
  ends : ∀ b, kept.getLast? = some b → isBlank b = false

@[simp] theorem lines_nil : lines [] = [] := rfl

theorem lines_of_clean {line : Bytes} (hne : line ≠ []) (hl : lineFeed ∉ line) :
    lines line = [line] := by
  induction line with
  | nil => exact absurd rfl hne
  | cons b r ih =>
    obtain ⟨hb, hr⟩ := List.ne_and_not_mem_of_not_mem_cons hl
    by_cases hrest : r = []
    · simp [hrest, lines, Ne.symm hb]
    · simp [lines, Ne.symm hb, ih hrest hr]

theorem lines_feed {line : Bytes} (content : Bytes) (hl : lineFeed ∉ line) :
    lines (line ++ lineFeed :: content) = (line ++ [lineFeed]) :: lines content := by
  induction line with
  | nil => simp [lines]
  | cons b r ih =>
    obtain ⟨hb, hr⟩ := List.ne_and_not_mem_of_not_mem_cons hl
    simp [lines, Ne.symm hb, ih hr]

theorem lines_cut (content : Bytes) : Lines content (lines content) := by
  rcases Bytes.clean_or_cut (· == lineFeed) content with hl | ⟨line, x, rest, rfl, hl, hx⟩
  · have hl : lineFeed ∉ content := fun hm => by simpa using hl lineFeed hm
    by_cases hne : content = []
    · rw [hne]
      exact .nil
    · rw [lines_of_clean hne hl]
      exact .rest hne hl
  · have hl : lineFeed ∉ line := fun hm => by simpa using hl lineFeed hm
    obtain rfl : x = lineFeed := by simpa using hx
    rw [lines_feed rest hl]
    exact .feed hl (lines_cut rest)
termination_by content.length
decreasing_by
  subst_vars
  simp only [List.length_append, List.length_cons]
  omega

/-- There is one cut into lines, and it is the one that is made. -/
theorem lines_iff {content : Bytes} {ls : List Bytes} : Lines content ls ↔ ls = lines content := by
  constructor
  · intro h
    induction h with
    | nil => rfl
    | rest hne hl => rw [lines_of_clean hne hl]
    | feed hl h ih => rw [lines_feed _ hl, ih]
  · intro h
    rw [h]
    exact lines_cut content

@[simp] theorem fields_nil : fields [] = [] := rfl

theorem fields_of_clean {f : Bytes} (hne : f ≠ []) (hf : ∀ b ∈ f, isBlank b = false) :
    fields f = [f] := by
  simp [fields, Bytes.splitWhen_of_clean hf, hne]

theorem fields_append_cons {b : UInt8} (line rest : Bytes) (hb : isBlank b = true) :
    fields (line ++ b :: rest) = fields line ++ fields rest := by
  simp [fields, Bytes.splitWhen_append_cons line rest hb]

theorem fields_cons_blank {b : UInt8} (rest : Bytes) (hb : isBlank b = true) :
    fields (b :: rest) = fields rest :=
  fields_append_cons [] rest hb

theorem fields_cut (line : Bytes) : Runs line (fields line) := by
  rcases Bytes.clean_or_cut isBlank line with hf | ⟨f, b, rest, rfl, hf, hb⟩
  · by_cases hne : line = []
    · rw [hne]
      exact .nil
    · rw [fields_of_clean hne hf]
      exact .last hne hf
  · rw [fields_append_cons f rest hb]
    by_cases hne : f = []
    · rw [hne]
      exact .blank hb (fields_cut rest)
    · rw [fields_of_clean hne hf]
      exact .run hne hf hb (fields_cut rest)
termination_by line.length
decreasing_by
  all_goals
    subst_vars
    simp only [List.length_append, List.length_cons]
    omega

theorem fields_iff {line : Bytes} {fs : List Bytes} : Runs line fs ↔ fs = fields line := by
  constructor
  · intro h
    induction h with
    | nil => rfl
    | blank hb h ih => rw [fields_cons_blank _ hb, ih]
    | last hne hf => rw [fields_of_clean hne hf]
    | run hne hf hb h ih =>
      rw [fields_append_cons _ _ hb, fields_of_clean hne hf, ih, List.singleton_append]
  · intro h
    rw [h]
    exact fields_cut line

theorem trimEnd_isTrimmed (line : Bytes) : IsTrimmed line (trimEnd line) where
  blanks := ⟨line.rtakeWhile isBlank, (List.rdropWhile_append_rtakeWhile).symm,
    fun _ => List.mem_rtakeWhile_imp⟩
  ends b hb := by
    have hne : trimEnd line ≠ [] := List.ne_nil_of_mem (List.mem_of_getLast? hb)
    have hlast := List.rdropWhile_last_not isBlank line hne
    rw [List.getLast?_eq_some_getLast hne] at hb
    rw [← Option.some.inj hb]
    exact Bool.eq_false_iff.2 hlast

theorem trimEnd_append {kept : Bytes} (end' : Bytes) (hblank : ∀ b ∈ end', isBlank b = true) :
    trimEnd (kept ++ end') = trimEnd kept := by
  unfold trimEnd
  rw [List.reverse_append, List.dropWhile_append_of_pos fun b hb => hblank b (List.mem_reverse.1 hb)]

theorem isTrimmed_iff {line kept : Bytes} : IsTrimmed line kept ↔ kept = trimEnd line := by
  constructor
  · intro h
    obtain ⟨end', rfl, hblank⟩ := h.blanks
    rw [trimEnd_append end' hblank]
    refine (List.rdropWhile_eq_self_iff.2 fun hne => ?_).symm
    have := h.ends _ (List.getLast?_eq_some_getLast hne)
    simp [this]
  · intro h
    rw [h]
    exact trimEnd_isTrimmed line

end MountTable

end SandboxMounts
