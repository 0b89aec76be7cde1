import SandboxMounts.Json.Value
import SandboxMounts.Proofs.TokenSpelling

/-!
Written values read back. Tokens put together in the order in which a value lists them make that
value again, whatever is open around it, and its compact text is read as those tokens.
-/

set_option autoImplicit false

namespace SandboxMounts.Json

variable {v : Json} {ts : List Token} {text : List Char} {stack : List Frame}

/-- What a piece is read as once it is written: a character that is written as a code unit is read
as one. -/
def Piece.reread : Piece → Piece
  | .char c => if charText c = unitEscape c.toNat then .unit c.toNat else .char c
  | .unit u => .unit (u % 0x10000)

mutual

def reread : Json → Json
  | .null => .null
  | .bool b => .bool b
  | .number literal => .number literal
  | .string pieces => .string (pieces.map Piece.reread)
  | .array vs => .array (rereadItems vs)
  | .object ms => .object (rereadMembers ms)

def rereadItems : List Json → List Json
  | [] => []
  | v :: vs => v.reread :: rereadItems vs

def rereadMembers : List (List Piece × Json) → List (List Piece × Json)
  | [] => []
  | m :: ms => (m.1.map Piece.reread, m.2.reread) :: rereadMembers ms

end

theorem rereadItems_eq_map (vs : List Json) : rereadItems vs = vs.map reread := by
  induction vs with
  | nil => rfl
  | cons v vs ih => rw [rereadItems, ih, List.map_cons]

/-! ### Tokens to values -/

theorem build?_firstItem (v : Json) (ts : List Token) (stack : List Frame) :
    build? (v.tokens ++ ts) .firstItem stack = build? (v.tokens ++ ts) .value stack := by
  cases v with
  | null | bool | number | string => rfl
  | array vs => cases vs <;> rfl
  | object ms => cases ms <;> rfl

mutual

theorem build?_tokens (v : Json) (ts : List Token) (stack : List Frame) :
    build? (v.tokens ++ ts) .value stack = build? ts (.after v) stack := by
  match v with
  | .null | .bool _ | .number _ | .string _ => rfl
  | .array [] | .object [] => rfl
  | .array (v :: vs) =>
    calc build? ((Json.array (v :: vs)).tokens ++ ts) .value stack
      _ = build? (v.tokens ++ (itemTokens vs ++ .rightBracket :: ts)) .firstItem
        (.array [] :: stack) := by
        simp [tokens, build?, Want.step?, open?]
      _ = build? (itemTokens vs ++ .rightBracket :: ts) (.after v) (.array [] :: stack) := by
        rw [build?_firstItem, build?_tokens v]
      _ = build? ts (.after (.array (v :: vs))) stack := build?_items vs v [] ts stack
  | .object ((key, v) :: ms) =>
    calc build? ((Json.object ((key, v) :: ms)).tokens ++ ts) .value stack
      _ = build? (v.tokens ++ (memberTokens ms ++ .rightBrace :: ts)) .value
        (.object [] key :: stack) := by
        simp [tokens, build?, Want.step?, open?]
      _ = build? (memberTokens ms ++ .rightBrace :: ts) (.after v) (.object [] key :: stack) :=
        build?_tokens v _ _
      _ = build? ts (.after (.object ((key, v) :: ms))) stack := build?_members ms v [] key ts stack

theorem build?_items (vs : List Json) (v : Json) (items : List Json) (ts : List Token)
    (stack : List Frame) :
    build? (itemTokens vs ++ .rightBracket :: ts) (.after v) (.array items :: stack) =
      build? ts (.after (.array (items.reverse ++ v :: vs))) stack := by
  match vs with
  | [] => simp [itemTokens, build?, Want.step?, close?]
  | w :: vs =>
    calc build? (itemTokens (w :: vs) ++ .rightBracket :: ts) (.after v) (.array items :: stack)
      _ = build? (w.tokens ++ (itemTokens vs ++ .rightBracket :: ts)) .value
          (.array (v :: items) :: stack) := by
        simp [itemTokens, build?, Want.step?, close?]
      _ = build? (itemTokens vs ++ .rightBracket :: ts) (.after w) (.array (v :: items) :: stack) :=
        build?_tokens w _ _
      _ = build? ts (.after (.array (items.reverse ++ v :: w :: vs))) stack := by
        rw [build?_items vs w]
        simp

theorem build?_members (ms : List (List Piece × Json)) (v : Json) (members : List (List Piece × Json))
    (key : List Piece) (ts : List Token) (stack : List Frame) :
    build? (memberTokens ms ++ .rightBrace :: ts) (.after v) (.object members key :: stack) =
      build? ts (.after (.object (members.reverse ++ (key, v) :: ms))) stack := by
  match ms with
  | [] => simp [memberTokens, build?, Want.step?, close?]
  | (k, w) :: ms =>
    calc build? (memberTokens ((k, w) :: ms) ++ .rightBrace :: ts) (.after v)
          (.object members key :: stack)
      _ = build? (w.tokens ++ (memberTokens ms ++ .rightBrace :: ts)) .value
          (.object ((key, v) :: members) k :: stack) := by
        simp [memberTokens, build?, Want.step?, close?]
      _ = build? (memberTokens ms ++ .rightBrace :: ts) (.after w)
          (.object ((key, v) :: members) k :: stack) := build?_tokens w _ _
      _ = build? ts (.after (.object (members.reverse ++ (key, v) :: (k, w) :: ms))) stack := by
        rw [build?_members ms w]
        simp

end

theorem ofTokens?_tokens (v : Json) : ofTokens? v.tokens = some v := by
  have hv := build?_tokens v [] []
  rw [List.append_nil] at hv
  exact hv

/-! ### Text to tokens -/

theorem hexValue?_hexDigit {n : Nat} (hn : n < 16) : hexValue? (hexDigit n) = some n := by
  have hall : ∀ n : Fin 16, hexValue? (hexDigit n) = some n.val := by decide
  exact hall ⟨n, hn⟩

theorem spelled_unitEscape (u : Nat) : (Piece.unit (u % 0x10000)).Spelled (unitEscape u) := by
  have hu : u % 0x10000 = ((u / 4096 % 16 * 16 + u / 256 % 16) * 16 + u / 16 % 16) * 16 + u % 16 := by
    omega
  rw [hu]
  exact .unit (hexValue?_hexDigit (by omega)) (hexValue?_hexDigit (by omega))
    (hexValue?_hexDigit (by omega)) (hexValue?_hexDigit (by omega))

theorem charText_cases (c : Char) :
    (∃ e, escaped? e = some c ∧ charText c = ['\\', e]) ∨
      (c < ' ' ∧ charText c = unitEscape c.toNat) ∨
      (c ≠ '"' ∧ c ≠ '\\' ∧ ¬ c < ' ' ∧ charText c = [c]) := by
  unfold charText
  split
  · exact .inl ⟨'"', rfl, rfl⟩
  · exact .inl ⟨'\\', rfl, rfl⟩
  · exact .inl ⟨'b', rfl, rfl⟩
  · exact .inl ⟨'t', rfl, rfl⟩
  · exact .inl ⟨'n', rfl, rfl⟩
  · exact .inl ⟨'f', rfl, rfl⟩
  · exact .inl ⟨'r', rfl, rfl⟩
  · rename_i hquote hback _ _ _ _ _
    by_cases hc : c < ' '
    · exact .inr (.inl ⟨hc, if_pos hc⟩)
    · exact .inr (.inr ⟨hquote, hback, hc, if_neg hc⟩)

theorem Piece.reread_char (c : Char) :
    (Piece.char c).reread = .char c ∨ c < ' ' ∧ (Piece.char c).reread = .unit c.toNat := by
  by_cases hu : charText c = unitEscape c.toNat
  · refine .inr ⟨?_, if_pos hu⟩
    rcases charText_cases c with ⟨e, -, he⟩ | ⟨hc, -⟩ | ⟨-, -, -, hc⟩
    · simp [he, unitEscape] at hu
    · exact hc
    · simp [hc, unitEscape] at hu
  · exact .inl (if_neg hu)

theorem Piece.spelled_text (p : Piece) : p.reread.Spelled p.text := by
  cases p with
  | unit u => exact spelled_unitEscape u
  | char c =>
    change (Piece.char c).reread.Spelled (charText c)
    rcases charText_cases c with ⟨e, he, htext⟩ | ⟨hc, htext⟩ | ⟨hquote, hback, hc, htext⟩
    · rw [reread, htext, if_neg (by simp [unitEscape])]
      exact .letter he
    · have hlt : c.toNat < 0x20 := hc
      have hunit := spelled_unitEscape c.toNat
      rw [Nat.mod_eq_of_lt (by omega)] at hunit
      rwa [reread, if_pos htext, htext]
    · rw [reread, htext, if_neg (by simp [unitEscape])]
      exact .plain hquote hback hc

theorem textOf?_unit_char {c : Char} (hc : c.toNat < 0x10000) (r : List Piece) :
    textOf? (.unit c.toNat :: r) = (textOf? r).map (c :: ·) := by
  have hvalid : c.toNat < 0xD800 ∨ 0xDFFF < c.toNat ∧ c.toNat < 0x110000 := c.valid
  have hhigh : isHighSurrogate c.toNat = false := by
    simp only [isHighSurrogate, Bool.and_eq_false_iff, decide_eq_false_iff_not]
    omega
  have hlow : isLowSurrogate c.toNat = false := by
    simp only [isLowSurrogate, Bool.and_eq_false_iff, decide_eq_false_iff_not]
    omega
  rw [textOf?.eq_def]
  simp [hhigh, hlow]

theorem textOf?_reread (cs : List Char) :
    textOf? ((cs.map Piece.char).map Piece.reread) = some cs := by
  induction cs with
  | nil => rfl
  | cons c cs ih =>
    rw [List.map_cons, List.map_cons]
    rcases Piece.reread_char c with hc | ⟨hlt, hc⟩
    · rw [hc, textOf?, ih]
      rfl
    · have hval : c.toNat < 0x20 := hlt
      rw [hc, textOf?_unit_char (by omega), ih]
      rfl

theorem endsNumber_cons {c : Char} {text : List Char} (hd : c.isDigit = false)
    (hc : c ≠ '.' ∧ c ≠ 'e' ∧ c ≠ 'E') : EndsNumber (c :: text) := by
  intro d hmem part _
  obtain rfl : c = d := by simpa using hmem
  cases part <;> simp_all [NumberPart.next?, NumberPart.isComplete]

theorem Spells.mark {t : Token} (hm : t.isMark = true) (h : Spells ts text) :
    Spells (t :: ts) (t.text ++ text) := by
  refine .token (.of_isMark hm) (fun hnum => ?_) h
  cases t <;> cases hm <;> cases hnum

theorem Spells.string (pieces : List Piece) (h : Spells ts text) :
    Spells (.string (pieces.map Piece.reread) :: ts) ((Token.string pieces).text ++ text) := by
  have hparts : List.Forall₂ Piece.Spelled (pieces.map Piece.reread) (pieces.map Piece.text) := by
    induction pieces with
    | nil => exact .nil
    | cons p pieces ih => exact .cons p.spelled_text ih
  rw [Token.text, List.flatMap_def]
  exact .token (.string hparts) (fun hnum => by cases hnum) h

theorem endsNumber_items (vs : List Json) (text : List Char) :
    EndsNumber ((itemTokens vs).flatMap Token.text ++ ']' :: text) := by
  cases vs with
  | nil => exact endsNumber_cons rfl (by decide)
  | cons v vs => exact endsNumber_cons rfl (by decide)

theorem endsNumber_members (ms : List (List Piece × Json)) (text : List Char) :
    EndsNumber ((memberTokens ms).flatMap Token.text ++ '\x7d' :: text) := by
  cases ms with
  | nil => exact endsNumber_cons rfl (by decide)
  | cons m ms => exact endsNumber_cons rfl (by decide)

mutual

theorem spells_tokens {ts : List Token} {text : List Char} (v : Json)
    (hv : ∀ literal, .number literal ∈ v.tokens → IsNumber literal) (he : EndsNumber text)
    (h : Spells ts text) :
    Spells (v.reread.tokens ++ ts) (v.tokens.flatMap Token.text ++ text) := by
  match v with
  | .null => exact .mark (t := .null) rfl h
  | .bool b =>
    simp only [reread, tokens, List.flatMap_cons, List.flatMap_nil, List.append_nil]
    exact .mark (t := .bool b) rfl h
  | .number literal =>
    simp only [reread, tokens, List.flatMap_cons, List.flatMap_nil, List.append_nil]
    exact .token (.number (hv literal (List.mem_singleton_self _))) (fun _ => he) h
  | .string pieces =>
    simp only [reread, tokens, List.flatMap_cons, List.flatMap_nil, List.append_nil]
    exact .string pieces h
  | .array [] =>
    exact .mark (t := .leftBracket) rfl (.mark (t := .rightBracket) rfl h)
  | .object [] =>
    exact .mark (t := .leftBrace) rfl (.mark (t := .rightBrace) rfl h)
  | .array (v :: vs) =>
    have hitems := spells_items vs (fun literal hl => hv literal (by simp [tokens, hl])) h
    have hfirst := spells_tokens v (fun literal hl => hv literal (by simp [tokens, hl]))
      (endsNumber_items vs text) hitems
    have hall := hfirst.mark (t := .leftBracket) rfl
    simpa [tokens, reread, rereadItems, Token.text] using hall
  | .object ((key, v) :: ms) =>
    have hmembers := spells_members ms (fun literal hl => hv literal (by simp [tokens, hl])) h
    have hfirst := spells_tokens v (fun literal hl => hv literal (by simp [tokens, hl]))
      (endsNumber_members ms text) hmembers
    have hall := ((hfirst.mark (t := .colon) rfl).string key).mark (t := .leftBrace)
      rfl
    simpa [tokens, reread, rereadMembers, Token.text] using hall

theorem spells_items {ts : List Token} {text : List Char} (vs : List Json)
    (hvs : ∀ literal, .number literal ∈ itemTokens vs → IsNumber literal) (h : Spells ts text) :
    Spells (itemTokens (rereadItems vs) ++ .rightBracket :: ts)
      ((itemTokens vs).flatMap Token.text ++ ']' :: text) := by
  match vs with
  | [] => exact .mark (t := .rightBracket) rfl h
  | v :: vs =>
    have hitems := spells_items vs (fun literal hl => hvs literal (by simp [itemTokens, hl])) h
    have hfirst := spells_tokens v (fun literal hl => hvs literal (by simp [itemTokens, hl]))
      (endsNumber_items vs text) hitems
    have hall := hfirst.mark (t := .comma) rfl
    simpa [itemTokens, rereadItems, Token.text] using hall

theorem spells_members {ts : List Token} {text : List Char} (ms : List (List Piece × Json))
    (hms : ∀ literal, .number literal ∈ memberTokens ms → IsNumber literal) (h : Spells ts text) :
    Spells (memberTokens (rereadMembers ms) ++ .rightBrace :: ts)
      ((memberTokens ms).flatMap Token.text ++ '\x7d' :: text) := by
  match ms with
  | [] => exact .mark (t := .rightBrace) rfl h
  | (key, v) :: ms =>
    have hmembers := spells_members ms (fun literal hl => hms literal (by simp [memberTokens, hl])) h
    have hfirst := spells_tokens v (fun literal hl => hms literal (by simp [memberTokens, hl]))
      (endsNumber_members ms text) hmembers
    have hall := ((hfirst.mark (t := .colon) rfl).string key).mark (t := .comma) rfl
    simpa [memberTokens, rereadMembers, Token.text] using hall

end

theorem parse?_compact (v : Json) (hv : ∀ literal, .number literal ∈ v.tokens → IsNumber literal) :
    parse? v.compact = some v.reread := by
  have hends : EndsNumber [] := by simp [EndsNumber]
  have hspells := spells_tokens v hv hends .nil
  rw [List.append_nil, List.append_nil] at hspells
  rw [parse?, compact, tokens?_of_spells hspells, Option.bind_some, ofTokens?_tokens]

end SandboxMounts.Json
