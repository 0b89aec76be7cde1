import SandboxMounts.Proofs.CompactText
import SandboxMounts.Proofs.TokenReading

/-!
The grammar of JSON text, apart from the reader: values between blanks, in brackets and with commas
and colons between them. The reader takes exactly the texts of the grammar, each for the value that
it is written for.
-/

set_option autoImplicit false

namespace SandboxMounts.Json

/-- What a stretch of text stands for: a value, or what is between the brackets of an array or an
object. -/
inductive Phrase where
  | value (v : Json)
  | items (vs : List Json)
  | members (ms : List (List Piece × Json))

inductive Written : Phrase → List Char → Prop
  | null : Written (.value .null) ['n', 'u', 'l', 'l']
  | isTrue : Written (.value (.bool true)) ['t', 'r', 'u', 'e']
  | isFalse : Written (.value (.bool false)) ['f', 'a', 'l', 's', 'e']
  | number {literal : List Char} (hl : IsNumeral literal) : Written (.value (.number literal)) literal
  | string {pieces : List Piece} {parts : List (List Char)}
    (hp : List.Forall₂ Piece.Spelled pieces parts) :
    Written (.value (.string pieces)) ('"' :: parts.flatten ++ ['"'])
  | array {vs : List Json} {text : List Char} (h : Written (.items vs) text) :
    Written (.value (.array vs)) ('[' :: text ++ [']'])
  | object {ms : List (List Piece × Json)} {text : List Char} (h : Written (.members ms) text) :
    Written (.value (.object ms)) ('\x7b' :: text ++ ['\x7d'])
  | noItems : Written (.items []) []
  | item {v : Json} {text : List Char} (h : Written (.value v) text) : Written (.items [v]) text
  | items {v w : Json} {vs : List Json} {text rest : List Char} (h : Written (.value v) text)
    (hs : Written (.items (w :: vs)) rest) : Written (.items (v :: w :: vs)) (text ++ ',' :: rest)
  | noMembers : Written (.members []) []
  | member {key : List Piece} {v : Json} {name text : List Char}
    (hk : Written (.value (.string key)) name) (hv : Written (.value v) text) :
    Written (.members [(key, v)]) (name ++ ':' :: text)
  | members {m m' : List Piece × Json} {ms : List (List Piece × Json)} {text rest : List Char}
    (h : Written (.members [m]) text) (hs : Written (.members (m' :: ms)) rest) :
    Written (.members (m :: m' :: ms)) (text ++ ',' :: rest)
  | blankBefore {phrase : Phrase} {c : Char} {text : List Char} (hc : isBlank c = true)
    (h : Written phrase text) : Written phrase (c :: text)
  | blankAfter {phrase : Phrase} {c : Char} {text : List Char} (hc : isBlank c = true)
    (h : Written phrase text) : Written phrase (text ++ [c])

variable {v : Json} {ts : List Token} {text rest : List Char} {phrase : Phrase} {t : Token}
  {w w' : Want} {stack stack' : List Frame}

/-! ### From the grammar to the reader -/

def Phrase.tokens : Phrase → List Token
  | .value v => v.tokens
  | .items [] => []
  | .items (v :: vs) => v.tokens ++ itemTokens vs
  | .members [] => []
  | .members (m :: ms) => .string m.1 :: .colon :: m.2.tokens ++ memberTokens ms

theorem tokens_array (vs : List Json) :
    (Json.array vs).tokens = .leftBracket :: (Phrase.items vs).tokens ++ [.rightBracket] := by
  cases vs <;> rfl

theorem tokens_object (ms : List (List Piece × Json)) :
    (Json.object ms).tokens = .leftBrace :: (Phrase.members ms).tokens ++ [.rightBrace] := by
  cases ms <;> rfl

theorem endsNumber_blank {c : Char} (hc : isBlank c = true) : EndsNumber (c :: text) := by
  have hblank : c = ' ' ∨ c = '\t' ∨ c = '\n' ∨ c = '\r' := by
    simpa [isBlank, or_assoc] using hc
  rcases hblank with rfl | rfl | rfl | rfl <;> exact endsNumber_cons rfl (by decide)

theorem Written.spells (h : Written phrase text) (he : EndsNumber rest) (hs : Spells ts rest) :
    Spells (phrase.tokens ++ ts) (text ++ rest) := by
  induction h generalizing ts rest with
  | null => exact .mark (t := .null) rfl hs
  | isTrue => exact .mark (t := .bool true) rfl hs
  | isFalse => exact .mark (t := .bool false) rfl hs
  | number hl => exact .token (.number (Scan.isNumber_iff.2 hl)) (fun _ => he) hs
  | string hp => exact .token (.string hp) (fun hnum => by cases hnum) hs
  | @array vs text h ih =>
    have hinner := ih (endsNumber_cons rfl (by decide)) (hs.mark (t := .rightBracket) rfl)
    have hall := hinner.mark (t := .leftBracket) rfl
    rw [Phrase.tokens, tokens_array]
    simpa [Token.text] using hall
  | @object ms text h ih =>
    have hinner := ih (endsNumber_cons rfl (by decide)) (hs.mark (t := .rightBrace) rfl)
    have hall := hinner.mark (t := .leftBrace) rfl
    rw [Phrase.tokens, tokens_object]
    simpa [Token.text] using hall
  | noItems => exact hs
  | @item v text h ih => simpa [Phrase.tokens, itemTokens] using ih he hs
  | @items v w vs text rest' h hs' ih ihs =>
    have hrest := (ihs he hs).mark (t := .comma) rfl
    have hall := ih (endsNumber_cons rfl (by decide)) hrest
    simpa [Phrase.tokens, itemTokens] using hall
  | noMembers => exact hs
  | @member key v name text hk hv ihk ihv =>
    have hvalue := (ihv he hs).mark (t := .colon) rfl
    have hall := ihk (endsNumber_cons rfl (by decide)) hvalue
    simpa [Phrase.tokens, tokens, memberTokens] using hall
  | @members m m' ms text rest' h hs' ih ihs =>
    have hrest := (ihs he hs).mark (t := .comma) rfl
    have hall := ih (endsNumber_cons rfl (by decide)) hrest
    simpa [Phrase.tokens, memberTokens] using hall
  | blankBefore hc h ih => exact .blank hc (ih he hs)
  | blankAfter hc h ih =>
    rw [List.append_assoc]
    exact ih (endsNumber_blank hc) (.blank hc hs)

theorem parse?_of_written (h : Written (.value v) text) : parse? text = some v := by
  have hends : EndsNumber [] := by simp [EndsNumber]
  have hspells := h.spells hends .nil
  rw [List.append_nil, List.append_nil] at hspells
  rw [parse?, tokens?_of_spells hspells, Option.bind_some]
  exact ofTokens?_tokens v

/-! ### From the reader to the grammar -/

def memberSaid (m : List Piece × Json) : List Token := .string m.1 :: .colon :: m.2.tokens

def Frame.said : Frame → List Token
  | .array items => .leftBracket :: items.reverse.flatMap (·.tokens ++ [.comma])
  | .object members name =>
    .leftBrace :: members.reverse.flatMap (memberSaid · ++ [.comma]) ++ [.string name, .colon]

def Want.said : Want → List Token
  | .value | .firstItem => []
  | .firstKey => [.leftBrace]
  | .key members => .leftBrace :: members.reverse.flatMap (memberSaid · ++ [.comma])
  | .colon members name =>
    .leftBrace :: members.reverse.flatMap (memberSaid · ++ [.comma]) ++ [.string name]
  | .after v => v.tokens

def saidSoFar (w : Want) (stack : List Frame) : List Token :=
  stack.reverse.flatMap Frame.said ++ w.said

theorem tokens_items_snoc (vs : List Json) (v : Json) :
    (Phrase.items (vs ++ [v])).tokens = vs.flatMap (·.tokens ++ [.comma]) ++ v.tokens := by
  induction vs with
  | nil => simp [Phrase.tokens, itemTokens]
  | cons w vs ih =>
    rw [List.flatMap_cons, List.append_assoc, ← ih]
    cases vs <;> simp [Phrase.tokens, itemTokens]

theorem tokens_members_snoc (ms : List (List Piece × Json)) (m : List Piece × Json) :
    (Phrase.members (ms ++ [m])).tokens = ms.flatMap (memberSaid · ++ [.comma]) ++ memberSaid m := by
  induction ms with
  | nil => simp [Phrase.tokens, memberTokens, memberSaid]
  | cons m' ms ih =>
    rw [List.flatMap_cons, List.append_assoc, ← ih]
    cases ms <;> simp [Phrase.tokens, memberTokens, memberSaid]

theorem saidSoFar_open (ho : open? t stack = some (w, stack')) :
    saidSoFar w stack' = stack.reverse.flatMap Frame.said ++ [t] := by
  cases t <;> cases ho <;> simp [saidSoFar, Want.said, Frame.said, tokens]

theorem saidSoFar_close (hc : close? v t stack = some (w, stack')) :
    saidSoFar w stack' = stack.reverse.flatMap Frame.said ++ v.tokens ++ [t] := by
  unfold close? at hc
  split at hc <;> cases hc
  · simp [saidSoFar, Want.said, Frame.said]
  · rename_i items
    rw [saidSoFar, Want.said, tokens_array, List.reverse_cons, tokens_items_snoc]
    simp [Frame.said]
  · simp [saidSoFar, Want.said, Frame.said, memberSaid]
  · rename_i members name
    rw [saidSoFar, Want.said, tokens_object, List.reverse_cons, tokens_members_snoc]
    simp [Frame.said, memberSaid]

/-- Each step adds its token to what has been read. -/
theorem saidSoFar_step (hs : w.step? t stack = some (w', stack')) :
    saidSoFar w' stack' = saidSoFar w stack ++ [t] := by
  unfold Want.step? at hs
  split at hs
  · rw [saidSoFar_open hs]
    simp [saidSoFar, Want.said]
  · cases hs
    simp [saidSoFar, Want.said, Frame.said, tokens]
  · rw [saidSoFar_open hs]
    simp [saidSoFar, Want.said]
  · cases hs
    simp [saidSoFar, Want.said, tokens]
  · cases hs
    simp [saidSoFar, Want.said]
  · cases hs
    simp [saidSoFar, Want.said]
  · cases hs
    simp [saidSoFar, Want.said, Frame.said]
  · rw [saidSoFar_close hs]
    simp [saidSoFar, Want.said]
  · cases hs

theorem saidSoFar_build (hb : build? ts w stack = some v) : saidSoFar w stack ++ ts = v.tokens := by
  -- a step takes one token from what is still to be read and adds it to what has been
  induction ts generalizing w stack with
  | nil =>
    cases w <;> cases stack <;> cases hb
    simp [saidSoFar, Want.said]
  | cons t ts ih =>
    rw [build?] at hb
    split at hb
    · rename_i w' stack' hs
      rw [← ih hb, saidSoFar_step hs, List.append_assoc, List.singleton_append]
    · cases hb

theorem ofTokens?_eq_some_iff : ofTokens? ts = some v ↔ ts = v.tokens := by
  constructor
  · exact fun hv => saidSoFar_build hv
  · rintro rfl
    exact ofTokens?_tokens v

theorem LaidOut.exists_blanks (h : LaidOut [] text) : ∀ c ∈ text, isBlank c = true := by
  generalize hts : ([] : List Token) = ts at h
  induction h with
  | nil => exact fun c hc => by cases hc
  | blank hc h ih => exact List.forall_mem_cons.2 ⟨hc, ih hts⟩
  | token => cases hts

theorem LaidOut.uncons (h : LaidOut (t :: ts) text) :
    ∃ blanks word rest, text = blanks ++ word ++ rest ∧ (∀ c ∈ blanks, isBlank c = true) ∧
      t.Spelled word ∧ LaidOut ts rest := by
  generalize hts : t :: ts = all at h
  induction h with
  | nil => cases hts
  | @blank ts' c text hc h ih =>
    obtain ⟨blanks, word, rest, rfl, hblanks, hw, hr⟩ := ih hts
    exact ⟨c :: blanks, word, rest, rfl, List.forall_mem_cons.2 ⟨hc, hblanks⟩, hw, hr⟩
  | @token t' ts' word text ht h ih =>
    cases hts
    exact ⟨[], word, text, rfl, (by simp), ht, h⟩

theorem Written.blanksBefore {blanks : List Char} (hb : ∀ c ∈ blanks, isBlank c = true)
    (h : Written phrase text) : Written phrase (blanks ++ text) := by
  induction blanks with
  | nil => exact h
  | cons c blanks ih =>
    obtain ⟨hc, hb⟩ := List.forall_mem_cons.1 hb
    exact .blankBefore hc (ih hb)

theorem Written.blanksAfter {blanks : List Char} (hb : ∀ c ∈ blanks, isBlank c = true)
    (h : Written phrase text) : Written phrase (text ++ blanks) := by
  induction blanks generalizing text with
  | nil => rwa [List.append_nil]
  | cons c blanks ih =>
    obtain ⟨hc, hb⟩ := List.forall_mem_cons.1 hb
    simpa using ih hb (.blankAfter hc h)

theorem LaidOut.exists_mark (hm : t.isMark = true) (h : LaidOut (t :: ts) text) :
    ∃ blanks rest, text = blanks ++ t.text ++ rest ∧ (∀ c ∈ blanks, isBlank c = true) ∧
      LaidOut ts rest := by
  obtain ⟨blanks, word, rest, rfl, hb, hw, hr⟩ := h.uncons
  exact ⟨blanks, rest, by rw [hw.eq_text hm], hb, hr⟩

def Phrase.IsFound (phrase : Phrase) : Prop := ∀ ts text, LaidOut (phrase.tokens ++ ts) text →
  ∃ before rest, text = before ++ rest ∧ Written phrase before ∧ LaidOut ts rest

namespace Phrase.IsFound

theorem of_token (ht : phrase.tokens = [t]) (hw : ∀ word, t.Spelled word → Written phrase word) :
    phrase.IsFound := by
  intro ts text h
  rw [ht, List.singleton_append] at h
  obtain ⟨blanks, word, rest, rfl, hb, hspelled, hr⟩ := h.uncons
  exact ⟨blanks ++ word, rest, rfl, (hw word hspelled).blanksBefore hb, hr⟩

theorem of_mark (ht : phrase.tokens = [t]) (hm : t.isMark = true) (hw : Written phrase t.text) :
    phrase.IsFound := by
  refine of_token ht fun word hspelled => ?_
  rw [hspelled.eq_text hm]
  exact hw

theorem joined {first second : Phrase} (hf : first.IsFound) (hsec : second.IsFound)
    (ht : phrase.tokens = first.tokens ++ t :: second.tokens) (hm : t.isMark = true)
    (hw : ∀ a b, Written first a → Written second b → Written phrase (a ++ t.text ++ b)) :
    phrase.IsFound := by
  intro ts text h
  rw [ht, List.append_assoc, List.cons_append] at h
  obtain ⟨a, rest, rfl, ha, h⟩ := hf _ _ h
  obtain ⟨blanks, rest, rfl, hb, h⟩ := h.exists_mark hm
  obtain ⟨b, rest, rfl, hwb, h⟩ := hsec _ _ h
  exact ⟨a ++ blanks ++ t.text ++ b, rest, by simp, hw _ _ (ha.blanksAfter hb) hwb, h⟩

theorem enclosed {inner : Phrase} {t' : Token} (hi : inner.IsFound)
    (ht : phrase.tokens = t :: inner.tokens ++ [t']) (hm : t.isMark = true)
    (hm' : t'.isMark = true)
    (hw : ∀ a, Written inner a → Written phrase (t.text ++ a ++ t'.text)) : phrase.IsFound := by
  intro ts text h
  rw [ht, List.cons_append, List.cons_append, List.append_assoc, List.singleton_append] at h
  obtain ⟨blanks, rest, rfl, hb, h⟩ := h.exists_mark hm
  obtain ⟨a, rest, rfl, ha, h⟩ := hi _ _ h
  obtain ⟨blanks', rest, rfl, hb', h⟩ := h.exists_mark hm'
  refine ⟨blanks ++ (t.text ++ (a ++ blanks') ++ t'.text), rest, by simp, ?_, h⟩
  exact (hw _ (ha.blanksAfter hb')).blanksBefore hb

theorem string (pieces : List Piece) : (Phrase.value (.string pieces)).IsFound := by
  refine of_token rfl fun word hw => ?_
  cases hw with
  | string hp => exact .string hp
  | other hn hs => exact absurd rfl (hs pieces)

theorem member (key : List Piece) (hv : (Phrase.value v).IsFound) :
    (Phrase.members [(key, v)]).IsFound := by
  refine (string key).joined (t := .colon) hv ?_ rfl fun a b ha hb => ?_
  · simp [Phrase.tokens, memberTokens, Json.tokens]
  · simpa [Token.text] using Written.member ha hb

end Phrase.IsFound

mutual

theorem isFound_value (v : Json) : (Phrase.value v).IsFound := by
  match v with
  | .null => exact .of_mark rfl rfl .null
  | .bool true => exact .of_mark rfl rfl .isTrue
  | .bool false => exact .of_mark rfl rfl .isFalse
  | .number literal =>
    refine .of_token rfl fun word hw => ?_
    cases hw with
    | number hl => exact .number (Scan.isNumber_iff.1 hl)
    | other hn => exact absurd rfl (hn literal)
  | .string pieces => exact .string pieces
  | .array vs =>
    exact (isFound_items vs).enclosed (tokens_array vs) rfl rfl fun a => .array
  | .object ms =>
    exact (isFound_members ms).enclosed (tokens_object ms) rfl rfl fun a => .object

theorem isFound_items (vs : List Json) : (Phrase.items vs).IsFound := by
  match vs with
  | [] => exact fun ts text h => ⟨[], text, rfl, .noItems, h⟩
  | [v] =>
    intro ts text h
    rw [Phrase.tokens, itemTokens, List.append_nil] at h
    obtain ⟨before, rest, rfl, hw, h⟩ := isFound_value v ts text h
    exact ⟨before, rest, rfl, .item hw, h⟩
  | v :: w :: vs =>
    refine (isFound_value v).joined (t := .comma) (isFound_items (w :: vs)) ?_ rfl
      fun a b ha hb => ?_
    · simp [Phrase.tokens, itemTokens]
    · simpa [Token.text] using Written.items ha hb

theorem isFound_members (ms : List (List Piece × Json)) : (Phrase.members ms).IsFound := by
  match ms with
  | [] => exact fun ts text h => ⟨[], text, rfl, .noMembers, h⟩
  | [(key, v)] => exact .member key (isFound_value v)
  | (key, v) :: m :: ms =>
    refine (Phrase.IsFound.member key (isFound_value v)).joined (t := .comma)
      (isFound_members (m :: ms)) ?_ rfl fun a b ha hb => ?_
    · simp [Phrase.tokens, memberTokens]
    · simpa [Token.text] using Written.members ha hb

end

theorem parse?_eq_some_iff : parse? text = some v ↔ Written (.value v) text := by
  refine ⟨fun h => ?_, parse?_of_written⟩
  obtain ⟨ts, hts, hv⟩ := Option.bind_eq_some_iff.1 h
  have hlaid := laidOut_of_tokens? hts
  rw [ofTokens?_eq_some_iff.1 hv, ← List.append_nil v.tokens] at hlaid
  obtain ⟨before, rest, rfl, hw, hrest⟩ := isFound_value v [] text hlaid
  exact hw.blanksAfter hrest.exists_blanks

end SandboxMounts.Json
