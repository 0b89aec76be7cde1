import SandboxMounts.Proofs.FirstMatch

/-!
Tables put one after another. A lookup comes to the second only when it has found nothing in the first,
and the line that settles it settles it whatever comes after.
-/

set_option autoImplicit false

namespace SandboxMounts.MountTable

def IsClosed (table : Bytes) : Prop := table = [] ∨ table.getLast? = some lineFeed

section

variable {table line rest : Bytes} {ls ks : List Bytes} {mountPoint : Path}

theorem Lines.append (h : Lines table ls) (hc : IsClosed table) (hr : Lines rest ks) :
    Lines (table ++ rest) (ls ++ ks) := by
  induction h with
  | nil => exact hr
  | rest hne hl =>
    rcases hc with hnil | hlast
    · exact absurd hnil hne
    · exact absurd (List.mem_of_getLast? hlast) hl
  | @feed line content ls hl h ih =>
    rw [List.append_assoc, List.cons_append]
    refine .feed hl (ih ?_)
    by_cases hnil : content = []
    · exact .inl hnil
    · rcases hc with hempty | hlast
      · simp at hempty
      · rw [List.append_cons, List.getLast?_append_of_ne_nil _ hnil] at hlast
        exact .inr hlast

theorem lines_append (rest : Bytes) (hc : IsClosed table) :
    lines (table ++ rest) = lines table ++ lines rest :=
  (lines_iff.1 ((lines_cut table).append hc (lines_cut rest))).symm

theorem judge_feed (mountPoint : Path) (line : Bytes) :
    judge mountPoint (line ++ [lineFeed]) = judge mountPoint line := by
  have hfields : fields (line ++ [lineFeed]) = fields line := by
    rw [fields_append_cons line [] rfl, fields_nil, List.append_nil]
  have htrim : trimEnd (line ++ [lineFeed]) = trimEnd line :=
    trimEnd_append [lineFeed] (by simp [isBlank])
  rw [judge, judge, hfields, htrim]

/-- Either all lines are of other mount points, and a search goes on to what comes after them, or one of
them ends it. -/
theorem search_append_cases (mountPoint : Path) (ls : List Bytes) :
    ((∃ name, search mountPoint ls = .error (.mountEntryNotFound name)) ∧
      ∀ ks, search mountPoint (ls ++ ks) = search mountPoint ks) ∨
    (∀ name, search mountPoint ls ≠ .error (.mountEntryNotFound name)) ∧
      ∀ ks, search mountPoint (ls ++ ks) = search mountPoint ls := by
  have he := search_end mountPoint ls
  generalize search mountPoint ls = r at he ⊢
  cases he with
  | found hb he hm =>
    refine .inr ⟨fun name hc => (by cases hc), fun ks => ?_⟩
    rw [List.append_assoc, List.cons_append]
    exact search_iff.2 (.found hb he hm)
  | malformed hb hl =>
    refine .inr ⟨fun name hc => (by cases hc), fun ks => ?_⟩
    rw [List.append_assoc, List.cons_append]
    exact search_iff.2 (.malformed hb hl)
  | notFound hb => exact .inl ⟨⟨_, rfl⟩, fun ks => search_append ks hb⟩

theorem search_append_congr {ks' : List Bytes} (ls : List Bytes)
    (hk : search mountPoint ks = search mountPoint ks') :
    search mountPoint (ls ++ ks) = search mountPoint (ls ++ ks') := by
  rcases search_append_cases mountPoint ls with ⟨-, hon⟩ | ⟨-, hend⟩
  · rw [hon, hon, hk]
  · rw [hend, hend]

end

/-- A closed table followed by more answers as it does alone, unless it holds nothing for the mount point;
then the answer is that of what follows. So the first line that matches or is malformed decides
whatever comes after it. A last line that lacks its line feed may be given one before more is put
after it. -/
theorem lookupIn_append {table : Bytes} (hc : IsClosed table) (rest : Bytes) (mountPoint : Path) :
    ((∃ name, lookupIn table mountPoint = .error (.mountEntryNotFound name)) →
      lookupIn (table ++ rest) mountPoint = lookupIn rest mountPoint) ∧
    ((∀ name, lookupIn table mountPoint ≠ .error (.mountEntryNotFound name)) →
      lookupIn (table ++ rest) mountPoint = lookupIn table mountPoint) ∧
    (∀ before line after, Lines table (before ++ line :: after) →
      (∀ l ∈ before, IsOther mountPoint l) →
      (∀ e, IsEntryOf line e → e.mountPath = mountPoint →
        lookupIn (table ++ rest) mountPoint = .ok e) ∧
      ∀ found text, IsMalformed line found text → lookupIn (table ++ rest) mountPoint =
        .error (.malformedMountTable fieldCount found text)) ∧
    ∀ line, line ≠ [] → lineFeed ∉ line →
      lookupIn (table ++ (line ++ [lineFeed])) mountPoint = lookupIn (table ++ line) mountPoint := by
  unfold lookupIn
  rw [lines_append rest hc]
  refine ⟨fun hnone => ?_, fun hsome => ?_, fun before line after hls hb => ?_, fun line hne hl => ?_⟩
  · rcases search_append_cases mountPoint (lines table) with ⟨-, hon⟩ | ⟨hsome, -⟩
    · exact hon (lines rest)
    · obtain ⟨name, hname⟩ := hnone
      exact absurd hname (hsome name)
  · rcases search_append_cases mountPoint (lines table) with ⟨⟨name, hname⟩, -⟩ | ⟨-, hend⟩
    · exact absurd hname (hsome name)
    · exact hend (lines rest)
  · rw [← lines_iff.1 hls, List.append_assoc, List.cons_append]
    refine ⟨fun e he hm => ?_, fun found text hl => ?_⟩
    · exact search_iff.2 (.found hb he hm)
    · exact search_iff.2 (.malformed hb hl)
  · rw [lines_append _ hc, lines_append _ hc, lines_feed [] hl, lines_of_clean hne hl, lines_nil]
    refine search_append_congr (lines table) ?_
    simp only [search, judge_feed]

def lineOfP : Bytes := [0x70, 0x20, slash, 0x70, 0x20, 0x70, 0x20, 0x6F, 0x20, 0x30, 0x20, 0x30, lineFeed]

def lineOfD : Bytes :=
  -- `/d` on a device that is no text
  [0xE9, 0x20, slash, 0x64, 0x09, 0x78, 0x20, 0x6F, 0x20, 0x30, 0x20, 0x30, 0x0D, lineFeed]

theorem lookupIn_append_malformed :
    IsClosed (lineOfP ++ lineOfD) ∧
    lookupIn (lineOfP ++ lineOfD ++ [0x78, lineFeed, lineFeed]) ⟨[slash, 0x70]⟩ =
      .ok ⟨"p", ⟨[slash, 0x70]⟩, "p"⟩ ∧
    lookupIn (lineOfP ++ lineOfD ++ [0x78, lineFeed, lineFeed]) ⟨[slash, 0x64]⟩ =
      .ok ⟨"\uFFFD", ⟨[slash, 0x64]⟩, "x"⟩ ∧
    lookupIn (lineOfP ++ lineOfD ++ [0x78, lineFeed, lineFeed]) ⟨[slash, 0x71]⟩ =
      .error (.malformedMountTable 6 1 "x") ∧
    lookupIn (lineOfP ++ lineOfD ++ [0x78, lineFeed]) ⟨[slash, 0x71]⟩ =
      lookupIn (lineOfP ++ lineOfD ++ [0x78]) ⟨[slash, 0x71]⟩ := by
  have hc : IsClosed (lineOfP ++ lineOfD) := .inr rfl
  have hlines : Lines (lineOfP ++ lineOfD) [lineOfP, lineOfD] := lines_iff.2 rfl
  have hentry : IsEntryOf lineOfP ⟨"p", ⟨[slash, 0x70]⟩, "p"⟩ :=
    ⟨[0x70], [0x70], [0x6F], [0x30], [0x30], fields_iff.2 rfl, rfl, rfl⟩
  have hd : lookupIn (lineOfP ++ lineOfD) ⟨[slash, 0x64]⟩ = .ok ⟨"\uFFFD", ⟨[slash, 0x64]⟩, "x"⟩ := by
    rfl
  have hq : lookupIn (lineOfP ++ lineOfD) ⟨[slash, 0x71]⟩ = .error (.mountEntryNotFound "/q") := by rfl
  obtain ⟨-, -, hfirst, -⟩ := lookupIn_append hc [0x78, lineFeed, lineFeed] ⟨[slash, 0x70]⟩
  obtain ⟨-, hfound, -, -⟩ := lookupIn_append hc [0x78, lineFeed, lineFeed] ⟨[slash, 0x64]⟩
  obtain ⟨hmissing, -, -, hfeed⟩ := lookupIn_append hc [0x78, lineFeed, lineFeed] ⟨[slash, 0x71]⟩
  refine ⟨hc, ?_, ?_, ?_, hfeed [0x78] (by decide) (by decide)⟩
  · exact (hfirst [] lineOfP [lineOfD] hlines (List.forall_mem_nil _)).1 _ hentry rfl
  · rw [hfound (by simp [hd]), hd]
  · rw [hmissing ⟨_, hq⟩]
    rfl

end SandboxMounts.MountTable
