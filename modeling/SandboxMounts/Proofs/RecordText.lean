import SandboxMounts.ContainerMount
import SandboxMounts.Device.NumberJson
import SandboxMounts.Proofs.CompactText
import SandboxMounts.Proofs.Settings
import SandboxMounts.Proofs.TokenReading

/-!
Records written and read back. The fields of a record are found again under their keys, strings are
what they were whatever had to be escaped, and numbers are their digits.
-/

set_option autoImplicit false

namespace SandboxMounts

namespace Json

/-! ### Numbers -/

theorem exists_toDigits {n : Nat} (hn : 0 < n) :
    ∃ d r, 0 < d ∧ d < 10 ∧ Nat.toDigits 10 n = d.digitChar :: r := by
  induction n using Nat.strongRecOn with
  | ind n ih =>
    by_cases h : n < 10
    · exact ⟨n, [], hn, h, Nat.toDigits_of_lt_base h⟩
    · obtain ⟨d, r, hpos, hd, hr⟩ := ih (n / 10) (by omega) (by omega)
      refine ⟨d, r ++ [(n % 10).digitChar], hpos, hd, ?_⟩
      rw [Nat.toDigits_of_base_le (by decide) (by omega), hr, List.cons_append]

theorem isNumber_toDigits (n : Nat) : IsNumber (Nat.toDigits 10 n) := by
  have hwhole : IsWhole (Nat.toDigits 10 n) := by
    refine ⟨fun c hc => Nat.isDigit_of_mem_toDigits (by decide) (by decide) hc, ?_, fun hzero => ?_⟩
    · exact Nat.toDigits_ne_nil
    rcases Nat.eq_zero_or_pos n with rfl | hn
    · rfl
    · obtain ⟨d, r, hpos, hd, hr⟩ := exists_toDigits hn
      have hfirst : ∀ d : Fin 10, 0 < d.val → d.val.digitChar ≠ '0' := by decide
      rw [hr] at hzero
      exact absurd (Option.some.inj hzero) (hfirst ⟨d, hd⟩ hpos)
  exact Scan.isNumber_iff.2 ⟨[], _, [], [], .inl rfl, hwhole, .inl rfl, .inl rfl, by simp⟩

theorem digitsValue_toDigits (n : Nat) : digitsValue (Nat.toDigits 10 n) = n := by
  have hfold : ∀ ds : List Char, digitsValue ds = Nat.ofDigitChars 10 ds 0 := fun ds => by
    simp only [digitsValue, Nat.ofDigitChars, Nat.mul_comm]
  rw [hfold, Nat.ofDigitChars_ten_toDigits]

theorem uint32?_ofNat (n : UInt32) : (ofNat n.toNat).reread.uint32? = some n := by
  have hdigits : (Nat.toDigits 10 n.toNat).all Char.isDigit = true :=
    List.all_eq_true.2 fun c hc => Nat.isDigit_of_mem_toDigits (by decide) (by decide) hc
  rw [ofNat, reread, uint32?, digitsValue_toDigits, if_pos ⟨hdigits, n.toNat_lt⟩, UInt32.ofNat_toNat]

/-! ### Strings -/

theorem string?_ofChars (cs : List Char) : (ofChars cs).reread.string? = some (String.ofList cs) := by
  rw [ofChars, reread, string?, textOf?_reread, Option.map_some]

theorem string?_ofString (s : String) : (ofString s).reread.string? = some s := by
  rw [ofString, string?_ofChars, String.ofList_toList]

theorem strings?_array (ss : List String) :
    (Json.array (ss.map ofString)).reread.strings? = some ss := by
  rw [reread, strings?, rereadItems_eq_map]
  induction ss with
  | nil => rfl
  | cons s ss ih =>
    rw [List.map_cons, List.map_cons, List.mapM_cons, string?_ofString, ih]
    rfl

/-! ### Fields -/

theorem filter_zip_of_not_mem {keys : List (List Char)} {key : List Char} (hk : key ∉ keys)
    (vs : List Json) : (keys.zip vs).filter (·.1 = key) = [] := by
  refine List.filter_eq_nil_iff.2 fun m hm => ?_
  have hmem := (List.of_mem_zip (a := m.1) (b := m.2) hm).1
  simpa using fun he : m.1 = key => hk (he ▸ hmem)

theorem mapM_only? {keys : List (List Char)} (vs : List Json) (before : List (List Char × Json))
    (hkeys : keys.Nodup) (hlen : keys.length = vs.length)
    (hbefore : ∀ key ∈ keys, before.filter (·.1 = key) = []) :
    keys.mapM (only? (before ++ keys.zip vs)) = some (vs.map some) := by
  induction keys generalizing vs before with
  | nil =>
    obtain rfl : vs = [] := List.length_eq_zero_iff.1 hlen.symm
    rfl
  | cons key keys ih =>
    cases vs with
    | nil => cases hlen
    | cons v vs =>
      obtain ⟨hnot, hkeys⟩ := List.nodup_cons.1 hkeys
      have hfirst : only? (before ++ (key :: keys).zip (v :: vs)) key = some (some v) := by
        rw [only?, List.filter_append, hbefore key List.mem_cons_self, List.nil_append,
          List.zip_cons_cons, List.filter_cons_of_pos (by simp), filter_zip_of_not_mem hnot]
      have hmore : ∀ k ∈ keys, (before ++ [(key, v)]).filter (·.1 = k) = [] := fun k hk => by
        have hne : key ≠ k := fun he => hnot (he ▸ hk)
        rw [List.filter_append, hbefore k (List.mem_cons_of_mem key hk), List.nil_append,
          List.filter_cons_of_neg (by simpa using hne), List.filter_nil]
      have hrest := ih vs (before ++ [(key, v)]) hkeys (Nat.succ.inj hlen) hmore
      rw [List.append_assoc] at hrest
      rw [List.mapM_cons, hfirst, List.zip_cons_cons, ← List.singleton_append, hrest]
      rfl

def record (keys : List String) (vs : List Json) : Json :=
  .object ((keys.map fun k => k.toList.map .char).zip vs)

theorem fields?_record {keys : List String} {vs : List Json} (hkeys : keys.Nodup)
    (hlen : keys.length = vs.length) :
    (record keys vs).reread.fields? (keys.map String.toList) =
      some (vs.map fun v => some v.reread) := by
  have hnamed : ∀ (keys : List String) (vs : List Json),
      (rereadMembers ((keys.map fun k => k.toList.map Piece.char).zip vs)).mapM
          (fun m => (textOf? m.1).map (·, m.2)) =
        some ((keys.map String.toList).zip (vs.map reread)) := by
    intro keys
    induction keys with
    | nil => exact fun vs => rfl
    | cons key keys ih =>
      intro vs
      cases vs with
      | nil => rfl
      | cons v vs =>
        rw [List.map_cons, List.zip_cons_cons, rereadMembers, List.mapM_cons, textOf?_reread, ih vs]
        rfl
  have hnodup : (keys.map String.toList).Nodup :=
    List.pairwise_map.2 (hkeys.imp fun hne he => hne (String.toList_inj.1 he))
  have honly := mapM_only? (vs.map reread) [] hnodup (by simpa using hlen) (by simp)
  rw [record, reread, fields?, hnamed]
  simpa [Function.comp_def] using honly

/-! ### Numbers within a value -/

def HasNumbers (v : Json) : Prop := ∀ literal, .number literal ∈ v.tokens → IsNumber literal

theorem hasNumbers_string (pieces : List Piece) : HasNumbers (.string pieces) := fun literal hl => by
  simp [tokens] at hl

theorem hasNumbers_bool (b : Bool) : HasNumbers (.bool b) := fun literal hl => by
  simp [tokens] at hl

theorem hasNumbers_ofNat (n : Nat) : HasNumbers (ofNat n) := fun literal hl => by
  obtain rfl : literal = Nat.toDigits 10 n := by simpa [ofNat, tokens] using hl
  exact isNumber_toDigits n

theorem mem_itemTokens {literal : List Char} {vs : List Json} :
    .number literal ∈ itemTokens vs ↔ ∃ v ∈ vs, .number literal ∈ v.tokens := by
  induction vs with
  | nil => simp [itemTokens]
  | cons v vs ih => simp [itemTokens, ih]

theorem mem_memberTokens {literal : List Char} {ms : List (List Piece × Json)} :
    .number literal ∈ memberTokens ms ↔ ∃ m ∈ ms, .number literal ∈ m.2.tokens := by
  induction ms with
  | nil => simp [memberTokens]
  | cons m ms ih => simp [memberTokens, ih]

theorem hasNumbers_array {vs : List Json} (hvs : ∀ v ∈ vs, v.HasNumbers) : HasNumbers (.array vs) := by
  intro literal hl
  have hl : .number literal ∈ itemTokens vs := by
    cases vs with
    | nil => simp [tokens] at hl
    | cons v vs => simpa [tokens, itemTokens] using hl
  obtain ⟨v, hv, hl⟩ := mem_itemTokens.1 hl
  exact hvs v hv literal hl

theorem hasNumbers_record {keys : List String} {vs : List Json} (hvs : ∀ v ∈ vs, v.HasNumbers) :
    (record keys vs).HasNumbers := by
  intro literal hl
  generalize hms : (keys.map fun k => k.toList.map Piece.char).zip vs = ms
  have hl : .number literal ∈ memberTokens ms := by
    rw [record, hms] at hl
    cases ms with
    | nil => simp [tokens] at hl
    | cons m ms => simpa [tokens, memberTokens] using hl
  obtain ⟨m, hm, hl⟩ := mem_memberTokens.1 hl
  exact hvs m.2 (List.of_mem_zip (a := m.1) (b := m.2) (hms ▸ hm)).2 literal hl

theorem parse?_toList {v : Json} (hv : v.HasNumbers) :
    parse? (String.ofList v.compact).toList = some v.reread := by
  rw [String.toList_ofList, parse?_compact v hv]

end Json

theorem ContainerMount.ofText?_text (m : ContainerMount) : ofText? m.text = some m := by
  have hnumbers : m.toJson.HasNumbers := by
    refine Json.hasNumbers_record fun v hv => ?_
    simp only [List.mem_cons, List.not_mem_nil, or_false] at hv
    rcases hv with rfl | rfl | rfl | rfl | rfl | rfl | rfl
    case inr.inr.inr.inl =>
      refine Json.hasNumbers_array fun v hv => ?_
      obtain ⟨s, -, rfl⟩ := List.mem_map.1 hv
      exact Json.hasNumbers_string _
    case inr.inr.inr.inr.inr.inl => exact Json.hasNumbers_bool _
    all_goals exact Json.hasNumbers_string _
  have hkeys : keys.Nodup := by decide
  have hfields : m.toJson.reread.fields? (keys.map String.toList) = _ :=
    Json.fields?_record hkeys rfl
  have hbool : (Json.bool m.readOnly).reread.bool? = some m.readOnly := rfl
  rw [ofText?, text, Json.parse?_toList hnumbers, Option.bind_some, ofJson?, hfields]
  simp [Json.string?_ofString, Json.strings?_array, hbool]

theorem DeviceNumber.ofText?_jsonText (d : DeviceNumber) : ofText? d.jsonText = some d := by
  have hnumbers : d.toJson.HasNumbers := by
    refine Json.hasNumbers_record fun v hv => ?_
    simp only [List.mem_cons, List.not_mem_nil, or_false] at hv
    rcases hv with rfl | rfl
    all_goals exact Json.hasNumbers_ofNat _
  have hkeys : keys.Nodup := by decide
  have hfields : d.toJson.reread.fields? (keys.map String.toList) = _ :=
    Json.fields?_record hkeys rfl
  rw [ofText?, jsonText, Json.parse?_toList hnumbers, Option.bind_some, ofJson?, hfields]
  simp [Json.uint32?_ofNat]

namespace Config

variable {c : Config} {s : String}

def IsText (c : Config) : Prop := ∀ p ∈ c.paths, (Utf8.text? p.bytes).isSome = true

def Given.all (c : Config) : Given := ⟨some c.sharedDir, some c.mountTable, some c.sysfsBlockDir⟩

theorem Given.filled_all (c : Config) : (Given.all c).filled = c := rfl

theorem IsText.exists_strings (hc : c.IsText) :
    ∃ a b d : String, c = ⟨.ofString a, .ofString b, .ofString d⟩ := by
  have hpath : ∀ p ∈ c.paths, ∃ s : String, p = .ofString s := fun p hp => by
    obtain ⟨s, hs⟩ := Option.isSome_iff_exists.1 (hc p hp)
    exact ⟨s, congrArg Path.mk (Utf8.text?_eq_some_iff.1 hs).symm⟩
  obtain ⟨a, ha⟩ := hpath c.sharedDir (by simp [paths])
  obtain ⟨b, hb⟩ := hpath c.mountTable (by simp [paths])
  obtain ⟨d, hd⟩ := hpath c.sysfsBlockDir (by simp [paths])
  exact ⟨a, b, d, by rw [← ha, ← hb, ← hd]⟩

theorem isText_of_strings (a b d : String) : IsText ⟨.ofString a, .ofString b, .ofString d⟩ := by
  have htext : ∀ s : String, (Utf8.text? (Path.ofString s).bytes).isSome = true := fun s => by
    rw [Path.ofString, Utf8.text?_eq_some_iff.2 rfl, Option.isSome_some]
  simp [IsText, paths, htext]

theorem IsText.textGives (hc : c.IsText) : ∃ s, c.text? = some s ∧ TextGives s (.all c) := by
  obtain ⟨a, b, d, rfl⟩ := hc.exists_strings
  have hdecode : ∀ s : String, Utf8.decode? (Path.ofString s).bytes = some s.toList := fun s =>
    Utf8.decode?_eq_some_iff.2 rfl
  let v := Json.record keys [.ofString a, .ofString b, .ofString d]
  have hjson : toJson? ⟨.ofString a, .ofString b, .ofString d⟩ = some v := by
    simp [toJson?, paths, hdecode]
    rfl
  have hnumbers : v.HasNumbers := by
    refine Json.hasNumbers_record fun v hv => ?_
    simp only [List.mem_cons, List.not_mem_nil, or_false] at hv
    rcases hv with rfl | rfl | rfl
    all_goals exact Json.hasNumbers_string _
  have hkeys : keys.Nodup := by decide
  have hfields : v.reread.fields? (keys.map String.toList) = _ :=
    Json.fields?_record hkeys rfl
  refine ⟨_, by rw [text?, hjson, Option.map_some], v.reread, Json.parse?_toList hnumbers, ?_⟩
  rw [given?, hfields]
  simp [givenPath?, Json.string?_ofString, Given.all]

theorem TextGives.ofFile {p : Path} {h : Host} (hs : TextGives s (.all c))
    (hr : (Host.read p h).1 = .ok (Utf8.ofString s)) :
    c.IsAbsolute ∧ (Config.ofFile p h).1 = .ok c ∨
      ∃ key path, c.FirstRelative key path ∧
        (Config.ofFile p h).1 = .error (notAbsolute key path) := by
  have hfile := ofFile_of_gives hr hs
  rw [Given.filled_all] at hfile
  rcases isAbsolute_or_firstRelative c with ha | ⟨key, path, hf⟩
  · exact .inl ⟨ha, hfile.trans ha.checked⟩
  · exact .inr ⟨key, path, hf, hfile.trans hf.checked⟩

end Config

/-- Whatever is written as JSON is read back as it was, and a configuration also from a file. -/
theorem records_reread :
    (∀ m : ContainerMount, ContainerMount.ofText? m.text = some m) ∧
      (∀ d : DeviceNumber, DeviceNumber.ofText? d.jsonText = some d) ∧
      ∀ c : Config, c.IsText →
        ∃ s, c.text? = some s ∧ Config.ofText? s = some c ∧
          ∀ p h, (Host.read p h).1 = .ok (Utf8.ofString s) →
            c.IsAbsolute ∧ (Config.ofFile p h).1 = .ok c ∨
              ∃ key path, c.FirstRelative key path ∧
                (Config.ofFile p h).1 = .error (Config.notAbsolute key path) := by
  refine ⟨ContainerMount.ofText?_text, DeviceNumber.ofText?_jsonText, fun c hc => ?_⟩
  obtain ⟨s, hs, hgives⟩ := hc.textGives
  exact ⟨s, hs, Config.ofText?_of_gives hgives, fun p h hr => hgives.ofFile hr⟩

def holding (content : Bytes) : Host :=
  { Host.initial with tree := ⟨[([[0x63]], .leaf .regular 0o644 content)]⟩ }

theorem read_holding (content : Bytes) :
    (Host.read ⟨[slash, 0x63]⟩ (holding content)).1 = .ok content := rfl

theorem records_reread_escaped :
    let c : Config := ⟨.ofString "/s", .ofString "m\x01\"😀", .ofString ""⟩
    ∃ s, c.text? = some s ∧ Config.ofText? s = some c ∧
      (Config.ofFile ⟨[slash, 0x63]⟩ (holding (Utf8.ofString s))).1 =
        .error (Config.notAbsolute "mount_table" c.mountTable) := by
  intro c
  obtain ⟨s, hs, hreread, hfile⟩ := records_reread.2.2 c (Config.isText_of_strings _ _ _)
  refine ⟨s, hs, hreread, ?_⟩
  rcases hfile ⟨[slash, 0x63]⟩ _ (read_holding _) with ⟨ha, -⟩ | ⟨key, path, hf, he⟩
  · cases ha.mountTable
  · cases hf with
    | sharedDir hs => cases hs
    | mountTable => exact he
    | sysfsBlockDir _ hm => cases hm

end SandboxMounts
