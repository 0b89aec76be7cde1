import Mathlib.Logic.Function.Basic
import SandboxMounts.Proofs.Grammar
import SandboxMounts.Proofs.Settings

/-!
The many texts of one configuration. A text assigns strings to some of the keys, in any order and
spelling and with anything unknown in between, or gives the first few values in an array; what it is
read as depends on the assignment alone. A key that comes twice or has no string is never read.
-/

set_option autoImplicit false

namespace SandboxMounts

namespace Json

/-- The pieces of a string stand for these characters: each as it is, or as its one or two code
units. -/
inductive Says : List Piece → List Char → Prop
  | nil : Says [] []
  | char {c : Char} {pieces : List Piece} {cs : List Char} (h : Says pieces cs) :
    Says (.char c :: pieces) (c :: cs)
  | unit {c : Char} {pieces : List Piece} {cs : List Char} (hc : c.toNat < 0x10000)
    (h : Says pieces cs) : Says (.unit c.toNat :: pieces) (c :: cs)
  | pair {c : Char} {pieces : List Piece} {cs : List Char} (hc : 0x10000 ≤ c.toNat)
    (h : Says pieces cs) :
    Says (.unit (0xD800 + (c.toNat - 0x10000) / 0x400) ::
      .unit (0xDC00 + (c.toNat - 0x10000) % 0x400) :: pieces) (c :: cs)

def IsText (v : Json) (s : String) : Prop := ∃ pieces, v = .string pieces ∧ Says pieces s.toList

variable {v : Json} {s : String} {pieces : List Piece} {cs : List Char} {key : List Char}
  {named : List (List Char × Json)} {found : Option Json}

theorem textOf?_pair {c : Char} (hc : 0x10000 ≤ c.toNat) (r : List Piece) :
    textOf? (.unit (0xD800 + (c.toNat - 0x10000) / 0x400) ::
      .unit (0xDC00 + (c.toNat - 0x10000) % 0x400) :: r) = (textOf? r).map (c :: ·) := by
  have hvalid : c.toNat < 0xD800 ∨ 0xDFFF < c.toNat ∧ c.toNat < 0x110000 := c.valid
  have hhigh : isHighSurrogate (0xD800 + (c.toNat - 0x10000) / 0x400) = true := by
    simp only [isHighSurrogate, Bool.and_eq_true, decide_eq_true_eq]
    omega
  have hlow : isLowSurrogate (0xDC00 + (c.toNat - 0x10000) % 0x400) = true := by
    simp only [isLowSurrogate, Bool.and_eq_true, decide_eq_true_eq]
    omega
  have hback : 0x10000 + (0xD800 + (c.toNat - 0x10000) / 0x400 - 0xD800) * 0x400 +
      (0xDC00 + (c.toNat - 0x10000) % 0x400 - 0xDC00) = c.toNat := by omega
  rw [textOf?, if_pos hhigh]
  simp only [hlow, if_true, hback, Char.ofNat_toNat]

theorem textOf?_of_says (h : Says pieces cs) : textOf? pieces = some cs := by
  induction h with
  | nil => rfl
  | char h ih => rw [textOf?, ih, Option.map_some]
  | unit hc h ih => rw [textOf?_unit_char hc, ih, Option.map_some]
  | pair hc h ih => rw [textOf?_pair hc, ih, Option.map_some]

theorem IsText.string? (h : v.IsText s) : v.string? = some s := by
  obtain ⟨pieces, rfl, hs⟩ := h
  rw [Json.string?, textOf?_of_says hs, Option.map_some, String.ofList_toList]

theorem string?_of_not_string (hv : ∀ pieces, v ≠ .string pieces) : v.string? = none := by
  cases v with
  | string pieces => exact absurd rfl (hv pieces)
  | _ => rfl

theorem only?_cons_of_ne {name : List Char} (hne : name ≠ key) (v : Json) :
    only? ((name, v) :: named) key = only? named key := by
  rw [only?, only?, List.filter_cons_of_neg (by simpa using hne)]

theorem only?_cons_self (h : only? named key = some none) (v : Json) :
    only? ((key, v) :: named) key = some (some v) := by
  rw [only?] at h ⊢
  rw [List.filter_cons_of_pos (by simp)]
  split at h
  · rename_i hnil
    rw [hnil]
  · cases h
  · cases h

theorem filter_of_only? (h : only? named key = some found) :
    (named.filter (·.1 = key)).map Prod.snd = found.toList := by
  unfold only? at h
  split at h <;> cases h
  · rename_i hnil
    rw [hnil]
    rfl
  · rename_i m hm
    rw [hm]
    rfl

end Json

namespace Config

open Json (Piece Says IsText Written)

inductive Key where
  | sharedDir
  | mountTable
  | sysfsBlockDir
  deriving DecidableEq

def Key.name : Key → String
  | .sharedDir => "shared_dir"
  | .mountTable => "mount_table"
  | .sysfsBlockDir => "sysfs_block_dir"

def Key.all : List Key := [.sharedDir, .mountTable, .sysfsBlockDir]

theorem Key.name_inj {k k' : Key} (h : k.name.toList = k'.name.toList) : k = k' := by
  cases k <;> cases k' <;> first | rfl | (revert h; decide)

abbrev Assignment := Key → Option String

def Assignment.given (a : Assignment) : Given where
  sharedDir := (a .sharedDir).map .ofString
  mountTable := (a .mountTable).map .ofString
  sysfsBlockDir := (a .sysfsBlockDir).map .ofString

def Assignment.ofList (values : List String) : Assignment := fun k => values[Key.all.idxOf k]?

theorem Assignment.given_ofList (values : List String) : (ofList values).given =
    ⟨values[0]?.map .ofString, values[1]?.map .ofString, values[2]?.map .ofString⟩ :=
  rfl

/-- The members of an object that holds the assigned strings under their keys, each key once, in any
order and with others in between. -/
inductive Lists : Assignment → List (List Piece × Json) → Prop
  | nil : Lists (fun _ => none) []
  | known {a : Assignment} {k : Key} {s : String} {key : List Piece} {v : Json}
    {ms : List (List Piece × Json)} (hk : a k = none) (hkey : Says key k.name.toList)
    (hv : v.IsText s) (h : Lists a ms) : Lists (Function.update a k (some s)) ((key, v) :: ms)
  | unknown {a : Assignment} {name : List Char} {key : List Piece} {v : Json}
    {ms : List (List Piece × Json)} (hkey : Says key name) (hne : ∀ k : Key, name ≠ k.name.toList)
    (h : Lists a ms) : Lists a ((key, v) :: ms)

/-- A key comes twice or has no string, or there are more values than keys. -/
inductive Misfits : Json → Prop
  | twice {k : Key} {key key' : List Piece} {v v' : Json}
    {before between after : List (List Piece × Json)} (hkey : Says key k.name.toList)
    (hkey' : Says key' k.name.toList) :
    Misfits (.object (before ++ (key, v) :: between ++ (key', v') :: after))
  | noString {k : Key} {key : List Piece} {v : Json} {before after : List (List Piece × Json)}
    (hkey : Says key k.name.toList) (hv : ∀ pieces, v ≠ .string pieces) :
    Misfits (.object (before ++ (key, v) :: after))
  | noStringItem {v : Json} {items : List Json} (hmem : v ∈ items)
    (hv : ∀ pieces, v ≠ .string pieces) : Misfits (.array items)
  | tooMany {items : List Json} (hlen : keys.length < items.length) : Misfits (.array items)

variable {a : Assignment} {ms : List (List Piece × Json)} {named : List (List Char × Json)}

def named? (m : List Piece × Json) : Option (List Char × Json) := (Json.textOf? m.1).map (·, m.2)

theorem named?_of_says {key : List Piece} {name : List Char} (h : Says key name) (v : Json) :
    named? (key, v) = some (name, v) := by
  rw [named?, Json.textOf?_of_says h, Option.map_some]

theorem fields?_object (hn : ms.mapM named? = some named) :
    (Json.object ms).fields? (keys.map String.toList) =
      (Key.all.map fun k => k.name.toList).mapM (Json.only? named) := by
  rw [Json.fields?]
  change (ms.mapM named?).bind _ = _
  rw [hn]
  rfl

theorem given?_object {f : Key → Option Path} (hn : ms.mapM named? = some named)
    (hf : ∀ k : Key, ∃ found, Json.only? named k.name.toList = some found ∧
      givenPath? found = some (f k)) :
    given? (.object ms) = some ⟨f .sharedDir, f .mountTable, f .sysfsBlockDir⟩ := by
  obtain ⟨sharedDir, hs, hs'⟩ := hf .sharedDir
  obtain ⟨mountTable, hm, hm'⟩ := hf .mountTable
  obtain ⟨sysfsBlockDir, hb, hb'⟩ := hf .sysfsBlockDir
  rw [given?, fields?_object hn]
  simp [Key.all, hs, hm, hb, hs', hm', hb']

theorem Lists.found (h : Lists a ms) :
    ∃ named, ms.mapM named? = some named ∧ ∀ k : Key, ∃ found,
      Json.only? named k.name.toList = some found ∧ found.map Json.string? = (a k).map some := by
  induction h with
  | nil => exact ⟨[], rfl, fun k => ⟨none, rfl, rfl⟩⟩
  | @known a k s key v ms hk hkey hv h ih =>
    obtain ⟨named, hn, hfound⟩ := ih
    refine ⟨(k.name.toList, v) :: named, ?_, fun k' => ?_⟩
    · rw [List.mapM_cons, named?_of_says hkey, hn]
      rfl
    · obtain ⟨found, hf, hstring⟩ := hfound k'
      by_cases heq : k' = k
      · subst heq
        rw [hk] at hstring
        obtain rfl : found = none := by simpa using hstring
        refine ⟨some v, Json.only?_cons_self hf v, ?_⟩
        rw [Function.update_self, Option.map_some, hv.string?, Option.map_some]
      · refine ⟨found, ?_, ?_⟩
        · rw [Json.only?_cons_of_ne fun hc => heq (Key.name_inj hc).symm, hf]
        · rw [Function.update_of_ne heq, hstring]
  | @unknown a name key v ms hkey hne h ih =>
    obtain ⟨named, hn, hfound⟩ := ih
    refine ⟨(name, v) :: named, ?_, fun k => ?_⟩
    · rw [List.mapM_cons, named?_of_says hkey, hn]
      rfl
    · rw [Json.only?_cons_of_ne (hne k)]
      exact hfound k

theorem Lists.given? (h : Lists a ms) : Config.given? (.object ms) = some a.given := by
  obtain ⟨named, hn, hfound⟩ := h.found
  refine given?_object (f := fun k => (a k).map .ofString) hn fun k => ?_
  obtain ⟨found, hf, hstring⟩ := hfound k
  refine ⟨found, hf, ?_⟩
  cases found with
  | none =>
    obtain hk : a k = none := by simpa using hstring.symm
    rw [hk]
    rfl
  | some v =>
    obtain ⟨s, hk, hs⟩ := Option.map_eq_some_iff.1 hstring.symm
    rw [hk, givenPath?, ← hs]
    rfl

theorem exists_found {g : Given} (hg : given? (.object ms) = some g) :
    ∃ named, ms.mapM named? = some named ∧ ∀ k : Key, ∃ found path,
      Json.only? named k.name.toList = some found ∧ givenPath? found = some path := by
  obtain ⟨fields, hfields, hg⟩ := Option.bind_eq_some_iff.1 hg
  obtain ⟨named, hn, hkeys⟩ := Option.bind_eq_some_iff.1 hfields
  have hkeys : (Key.all.map fun k => k.name.toList).mapM (Json.only? named) = some fields := hkeys
  simp only [Key.all, List.map_cons, List.map_nil, List.mapM_cons, List.mapM_nil, Option.pure_def,
    Option.bind_eq_bind, Option.bind_some, Option.bind_eq_some_iff, Option.some.injEq] at hkeys
  obtain ⟨sharedDir, hs, _, ⟨mountTable, hm, _, ⟨sysfsBlockDir, hb, rfl⟩, rfl⟩, rfl⟩ := hkeys
  obtain ⟨_, hs', hg⟩ := Option.bind_eq_some_iff.1 hg
  obtain ⟨_, hm', hg⟩ := Option.bind_eq_some_iff.1 hg
  obtain ⟨_, hb', -⟩ := Option.bind_eq_some_iff.1 hg
  refine ⟨named, hn, fun k => ?_⟩
  cases k with
  | sharedDir => exact ⟨_, _, hs, hs'⟩
  | mountTable => exact ⟨_, _, hm, hm'⟩
  | sysfsBlockDir => exact ⟨_, _, hb, hb'⟩

theorem exists_named {before after : List (List Piece × Json)} {k : Key} {key : List Piece}
    {v : Json} (hn : (before ++ (key, v) :: after).mapM named? = some named)
    (hkey : Says key k.name.toList) :
    ∃ n₁ n₂, named = n₁ ++ (k.name.toList, v) :: n₂ ∧ after.mapM named? = some n₂ := by
  simp only [List.mapM_append, List.mapM_cons, named?_of_says hkey, Option.bind_eq_bind,
    Option.bind_some, Option.pure_def, Option.bind_eq_some_iff, Option.some.injEq] at hn
  obtain ⟨n₁, -, _, ⟨n₂, h₂, rfl⟩, rfl⟩ := hn
  exact ⟨n₁, n₂, rfl, h₂⟩

theorem mapM_eq_some_iff {α β : Type} {f : α → Option β} {l : List α} {r : List β} :
    l.mapM f = some r ↔ List.Forall₂ (fun x y => f x = some y) l r := by
  induction l generalizing r with
  | nil => simp [eq_comm]
  | cons x l ih =>
    simp only [List.mapM_cons, Option.bind_eq_bind, Option.bind_eq_some_iff, Option.pure_def,
      Option.some.injEq, ih, List.forall₂_cons_left_iff]
    constructor
    · rintro ⟨y, hy, ys, hys, rfl⟩
      exact ⟨y, ys, hy, hys, rfl⟩
    · rintro ⟨y, ys, hy, hys, rfl⟩
      exact ⟨y, hy, ys, hys, rfl⟩

theorem givenPath?_of_noString {v : Json} (hv : ∀ pieces, v ≠ .string pieces) :
    givenPath? (some v) = none := by
  rw [givenPath?, Json.string?_of_not_string hv, Option.map_none]

theorem given?_array {items : List Json} (hlen : items.length ≤ keys.length) :
    given? (.array items) = (items.mapM Json.string?).map fun values =>
      (Assignment.ofList values).given := by
  simp only [Assignment.given_ofList]
  match items with
  | [] => rfl
  | [x] =>
    cases hx : x.string? <;> simp [given?, Json.fields?, givenPath?, keys, hx]
  | [x, y] =>
    cases hx : x.string? <;> cases hy : y.string? <;>
      simp [given?, Json.fields?, givenPath?, keys, hx, hy]
  | [x, y, z] =>
    cases hx : x.string? <;> cases hy : y.string? <;> cases hz : z.string? <;>
      simp [given?, Json.fields?, givenPath?, keys, hx, hy, hz]
  | _ :: _ :: _ :: _ :: _ => exact absurd hlen (by simp [keys])

theorem length_le_of_given? {items : List Json} {g : Given} (hg : given? (.array items) = some g) :
    items.length ≤ keys.length := by
  obtain ⟨fields, hfields, -⟩ := Option.bind_eq_some_iff.1 hg
  rw [Json.fields?] at hfields
  split at hfields
  · simpa using ‹items.length ≤ _›
  · cases hfields

theorem Misfits.given? {v : Json} (h : Misfits v) : Config.given? v = none := by
  refine Option.eq_none_iff_forall_ne_some.2 fun g hg => ?_
  cases h with
  | @twice k key key' v v' before between after hkey hkey' =>
    obtain ⟨named, hn, hfound⟩ := exists_found hg
    obtain ⟨found, path, hf, -⟩ := hfound k
    rw [List.append_assoc, List.cons_append] at hn
    obtain ⟨n₁, rest, rfl, hrest⟩ := exists_named hn hkey
    obtain ⟨n₂, n₃, rfl, -⟩ := exists_named hrest hkey'
    have hfilter := congrArg List.length (Json.filter_of_only? hf)
    have hle : found.toList.length ≤ 1 := by cases found <;> simp
    simp only [List.filter_append, List.filter_cons_of_pos, decide_true, List.length_map,
      List.length_append, List.length_cons] at hfilter
    omega
  | @noString k key v before after hkey hv =>
    obtain ⟨named, hn, hfound⟩ := exists_found hg
    obtain ⟨found, path, hf, hpath⟩ := hfound k
    obtain ⟨n₁, n₂, rfl, -⟩ := exists_named hn hkey
    have hmem : v ∈ found.toList := by
      rw [← Json.filter_of_only? hf]
      simp
    rw [Option.mem_toList.1 hmem, givenPath?_of_noString hv] at hpath
    cases hpath
  | @noStringItem v items hmem hv =>
    rw [given?_array (length_le_of_given? hg)] at hg
    obtain ⟨values, hvalues, -⟩ := Option.map_eq_some_iff.1 hg
    obtain ⟨before, after, rfl⟩ := List.append_of_mem hmem
    simp [List.mapM_append, List.mapM_cons, Json.string?_of_not_string hv] at hvalues
  | @tooMany items hlen => exact absurd (length_le_of_given? hg) (Nat.not_le.2 hlen)

/-- What a text is read as depends on what it assigns, not on how it is spelled: an object with the
assigned keys once each, in whatever order and with whatever in between, or an array of the first
values. A text with a key twice or without a string, or with too many values, is not read, nor is
one that the grammar does not have. -/
theorem ofText?_spelling :
    (∀ a ms text, Written (.value (.object ms)) text.toList → Lists a ms →
      ofText? text = some a.given.filled) ∧
    (∀ values items text, values.length ≤ keys.length →
      Written (.value (.array items)) text.toList → List.Forall₂ IsText items values →
      ofText? text = some (Assignment.ofList values).given.filled) ∧
    (∀ v text, Written (.value v) text.toList → Misfits v → ofText? text = none) ∧
    ∀ text, (∀ v, ¬ Written (.value v) text.toList) → ofText? text = none := by
  refine ⟨fun a ms text hw hl => ?_, fun values items text hlen hw hvalues => ?_,
    fun v text hw hm => ?_, fun text hno => ?_⟩
  · exact ofText?_of_gives ⟨_, Json.parse?_of_written hw, hl.given?⟩
  · have hstrings : items.mapM Json.string? = some values :=
      mapM_eq_some_iff.2 (hvalues.imp fun v s => IsText.string?)
    have hgiven : Config.given? (.array items) = some (Assignment.ofList values).given := by
      rw [given?_array (by rwa [hvalues.length_eq]), hstrings, Option.map_some]
    exact ofText?_of_gives ⟨_, Json.parse?_of_written hw, hgiven⟩
  · rw [ofText?, Json.parse?_of_written hw, Option.bind_some, ofJson?_eq, hm.given?,
      Option.map_none]
  · have hparse : Json.parse? text.toList = none := Option.eq_none_iff_forall_ne_some.2 fun v hv =>
      hno v (Json.parse?_eq_some_iff.1 hv)
    rw [ofText?, hparse, Option.bind_none]

theorem ofText?_spelling_escaped :
    ofText? "\x7b \"a\":\x7b\"mount_table\":-1e3\x7d,\"shared\\u005fdir\" :\"\\ud83d\\ude00\"\x7d" =
        some { Config.default with sharedDir := .ofString "😀" } ∧
      ofText? "[\"\\u002fsrv\"]" = some { Config.default with sharedDir := .ofString "/srv" } ∧
      ofText? "\x7b\"shared_dir\":\"/a\",\"shared\\u005fdir\":\"/a\"\x7d" = none ∧
      ofText? "\x7b\"shared_dir\":\"/a\"" = none := by
  have hshared : Says ("shared".toList.map .char ++ .unit 0x5f :: "dir".toList.map .char)
      (Key.name .sharedDir).toList :=
    .char (.char (.char (.char (.char (.char (.unit (c := '_') (by decide)
      (.char (.char (.char .nil)))))))))
  have hplain : Says ("shared_dir".toList.map .char) (Key.name .sharedDir).toList :=
    .char (.char (.char (.char (.char (.char (.char (.char (.char (.char .nil)))))))))
  obtain ⟨hobject, harray, hmisfit, hoff⟩ := ofText?_spelling
  refine ⟨?_, ?_, ?_, ?_⟩
  · have hother : ∀ k : Key, ['a'] ≠ k.name.toList := fun k => by cases k <;> decide
    have hemoji : IsText (.string [.unit 0xd83d, .unit 0xde00]) "😀" :=
      ⟨_, rfl, .pair (c := '😀') (by decide) .nil⟩
    exact hobject _ [([.char 'a'], .object [("mount_table".toList.map .char,
      .number "-1e3".toList)]), (_, .string [.unit 0xd83d, .unit 0xde00])] _
      (Json.parse?_eq_some_iff.1 rfl)
      (.unknown (.char .nil) hother (.known (k := .sharedDir) rfl hshared hemoji .nil))
  · exact harray ["/srv"] [.string (.unit 0x2f :: "srv".toList.map .char)] _ (by decide)
      (Json.parse?_eq_some_iff.1 rfl)
      (.cons ⟨_, rfl, .unit (c := '/') (by decide) (.char (.char (.char .nil)))⟩ .nil)
  · exact hmisfit _ _ (Json.parse?_eq_some_iff.1 rfl)
      (@Misfits.twice .sharedDir _ _ (.string ("/a".toList.map .char))
        (.string ("/a".toList.map .char)) [] [] [] hplain hshared)
  · refine hoff _ fun v hv => ?_
    have hparse : Json.parse? "\x7b\"shared_dir\":\"/a\"".toList = none := rfl
    rw [Json.parse?_eq_some_iff.2 hv] at hparse
    cases hparse

end Config

end SandboxMounts
