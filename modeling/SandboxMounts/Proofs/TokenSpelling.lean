import Mathlib.Data.List.Forall2
import SandboxMounts.Json.Token

/-!
Spelled tokens. A character of a string can be written in several ways, and blanks can stand between
tokens; whatever spells a list of tokens is read as that list.
-/

set_option autoImplicit false

namespace SandboxMounts.Json

/-- The ways to write a piece of a string: as it is, by a letter after a backslash, or by four
digits. -/
inductive Piece.Spelled : Piece → List Char → Prop
  | plain {c : Char} (hq : c ≠ '"') (hb : c ≠ '\\') (hc : ¬ c < ' ') : Spelled (.char c) [c]
  | letter {e c : Char} (he : escaped? e = some c) : Spelled (.char c) ['\\', e]
  | unit {c₁ c₂ c₃ c₄ : Char} {d₁ d₂ d₃ d₄ : Nat} (h₁ : hexValue? c₁ = some d₁)
    (h₂ : hexValue? c₂ = some d₂) (h₃ : hexValue? c₃ = some d₃) (h₄ : hexValue? c₄ = some d₄) :
    Spelled (.unit (((d₁ * 16 + d₂) * 16 + d₃) * 16 + d₄)) ['\\', 'u', c₁, c₂, c₃, c₄]

structure IsNumber (literal : List Char) : Prop where
  parts : ∃ c r first last, literal = c :: r ∧ begin? c = some ([], .number first [c]) ∧
    r.foldlM NumberPart.next? first = some last ∧ last.isComplete = true

def EndsNumber (text : List Char) : Prop :=
  ∀ c ∈ text.head?, ∀ part : NumberPart, part.isComplete = true → part.next? c = none

def Token.isNumber : Token → Bool
  | .number _ => true
  | _ => false

inductive Token.Spelled : Token → List Char → Prop
  | number {literal : List Char} (hn : IsNumber literal) : Spelled (.number literal) literal
  | string {pieces : List Piece} {parts : List (List Char)}
      (hp : List.Forall₂ Piece.Spelled pieces parts) :
    Spelled (.string pieces) ('"' :: parts.flatten ++ ['"'])
  | other {t : Token} (hn : ∀ literal, t ≠ .number literal) (hs : ∀ pieces, t ≠ .string pieces) :
    Spelled t t.text

def Token.isMark : Token → Bool
  | .number _ | .string _ => false
  | _ => true

theorem Token.Spelled.of_isMark {t : Token} (hm : t.isMark = true) : t.Spelled t.text := by
  refine .other (fun literal ht => ?_) fun pieces ht => ?_
  · rw [ht] at hm
    cases hm
  · rw [ht] at hm
    cases hm

theorem Token.Spelled.eq_text {t : Token} {word : List Char} (hm : t.isMark = true)
    (hw : t.Spelled word) : word = t.text := by
  cases hw with
  | number => cases hm
  | string => cases hm
  | other => rfl

/-- The text is the tokens one after another, with blanks between them at will. -/
inductive Spells : List Token → List Char → Prop
  | nil : Spells [] []
  | blank {ts : List Token} {c : Char} {text : List Char} (hc : isBlank c = true)
    (h : Spells ts text) : Spells ts (c :: text)
  | token {t : Token} {ts : List Token} {word text : List Char} (ht : t.Spelled word)
    (hn : t.isNumber = true → EndsNumber text) (h : Spells ts text) : Spells (t :: ts) (word ++ text)

namespace Scan

variable {st : Scan} {c : Char} {text r word : List Char} {t : Token} {read : List Piece}

theorem run?_cons (st : Scan) (c : Char) (r : List Char) :
    st.run? (c :: r) = (st.step? c).bind fun out => (out.2.run? r).map (out.1 ++ ·) := by
  rw [run?]
  cases st.step? c with
  | none => rfl
  | some out =>
    cases hr : out.2.run? r <;> simp [hr]

theorem run?_of_step {st' : Scan} (hs : st.step? c = some ([], st')) :
    st.run? (c :: r) = st'.run? r := by
  rw [run?_cons, hs]
  simp

theorem run?_number {literal : List Char} {first last : NumberPart} (digits : List Char)
    (hl : literal.foldlM NumberPart.next? first = some last) :
    (Scan.number first digits).run? (literal ++ text) =
      (Scan.number last (literal.reverse ++ digits)).run? text := by
  induction literal generalizing first digits with
  | nil =>
    cases hl
    rfl
  | cons c r ih =>
    obtain ⟨next, hnext, hr⟩ := Option.bind_eq_some_iff.1 hl
    have hstep : (Scan.number first digits).step? c = some ([], .number next (c :: digits)) := by
      rw [step?, hnext]
    rw [List.cons_append, run?_of_step hstep, ih (c :: digits) hr]
    simp

theorem run?_number_end {part : NumberPart} {digits : List Char} (hp : part.isComplete = true)
    (he : EndsNumber text) :
    (Scan.number part digits).run? text =
      (Scan.between.run? text).map (.number digits.reverse :: ·) := by
  cases text with
  | nil => simp [run?, finish?, hp]
  | cons c r =>
    have hnext : part.next? c = none := he c rfl part hp
    simp only [run?_cons, step?, hnext, hp, if_true]
    cases begin? c with
    | none => rfl
    | some out => cases hr : out.2.run? r <;> simp [hr]

theorem run?_piece {p : Piece} (hp : p.Spelled word) :
    (Scan.string read).run? (word ++ text) = (Scan.string (p :: read)).run? text := by
  cases hp with
  | @plain c hq hb hc =>
    refine run?_of_step ?_
    rw [step?, if_neg hq, if_neg hb, if_neg hc]
  | @letter e c he =>
    have hu : e ≠ 'u' := by
      rintro rfl
      cases he
    have hback : (Scan.string read).step? '\\' = some ([], .escape read) := by
      rw [step?, if_neg (by decide), if_pos rfl]
    have hletter : (Scan.escape read).step? e = some ([], .string (.char c :: read)) := by
      rw [step?, if_neg hu, he]
      rfl
    exact (run?_of_step hback).trans (run?_of_step hletter)
  | @unit c₁ c₂ c₃ c₄ d₁ d₂ d₃ d₄ h₁ h₂ h₃ h₄ =>
    have hback : (Scan.string read).step? '\\' = some ([], .escape read) := by
      rw [step?, if_neg (by decide), if_pos rfl]
    have hu : (Scan.escape read).step? 'u' = some ([], .unit read 0 4) := by
      rw [step?, if_pos rfl]
    have hdigit : ∀ {c : Char} {d value : Nat} (owed : Nat), hexValue? c = some d →
        (Scan.unit read value (owed + 2)).step? c =
          some ([], .unit read (value * 16 + d) (owed + 1)) := fun owed hd => by
      rw [step?, hd]
      rfl
    have hlast : ∀ {c : Char} {d value : Nat}, hexValue? c = some d →
        (Scan.unit read value 1).step? c = some ([], .string (.unit (value * 16 + d) :: read)) :=
      fun hd => by
        rw [step?, hd]
        rfl
    simp only [List.cons_append, List.nil_append]
    rw [run?_of_step hback, run?_of_step hu, run?_of_step (hdigit 2 h₁), run?_of_step (hdigit 1 h₂),
      run?_of_step (hdigit 0 h₃), run?_of_step (hlast h₄), Nat.zero_mul, Nat.zero_add]

theorem run?_pieces {pieces : List Piece} {parts : List (List Char)}
    (hp : List.Forall₂ Piece.Spelled pieces parts) :
    (Scan.string read).run? (parts.flatten ++ text) =
      (Scan.string (pieces.reverse ++ read)).run? text := by
  induction hp generalizing read with
  | nil => rfl
  | cons hp _ ih =>
    rw [List.flatten_cons, List.append_assoc, run?_piece hp, ih]
    simp

theorem run?_of_yield (hs : st.step? c = some ([t], .between)) :
    st.run? (c :: r) = (Scan.between.run? r).map (t :: ·) := by
  rw [run?_cons, hs]
  rfl

theorem run?_word {w : Char} {rest : List Char} :
    (Scan.word (w :: rest) t).run? (w :: rest ++ text) = (Scan.between.run? text).map (t :: ·) := by
  induction rest generalizing w with
  | nil => exact run?_of_yield (by rw [step?, if_pos rfl])
  | cons w' rest ih =>
    have hstep : (Scan.word (w :: w' :: rest) t).step? w = some ([], .word (w' :: rest) t) := by
      rw [step?, if_pos rfl]
    rw [List.cons_append, run?_of_step hstep, ih]

theorem run?_token (ht : t.Spelled word) (hn : t.isNumber = true → EndsNumber text) :
    Scan.between.run? (word ++ text) = (Scan.between.run? text).map (t :: ·) := by
  cases ht with
  | number hl =>
    obtain ⟨c, r, first, last, rfl, hfirst, hr, hlast⟩ := hl.parts
    have hbegin : Scan.between.step? c = some ([], .number first [c]) := hfirst
    rw [List.cons_append, run?_of_step hbegin, run?_number [c] hr,
      run?_number_end hlast (hn rfl)]
    simp
  | @string pieces parts hp =>
    have hopen : Scan.between.step? '"' = some ([], .string []) := rfl
    have hclose : (Scan.string (pieces.reverse ++ [])).step? '"' =
        some ([.string pieces], .between) := by
      rw [step?, if_pos rfl, List.append_nil, List.reverse_reverse]
    rw [List.cons_append, List.cons_append, List.append_assoc, run?_of_step hopen, run?_pieces hp]
    exact run?_of_yield hclose
  | other hl hs =>
    cases t with
    | number literal => exact absurd rfl (hl literal)
    | string pieces => exact absurd rfl (hs pieces)
    | bool b =>
      cases b with
      | true => exact (run?_of_step (show Scan.between.step? 't' = _ from rfl)).trans run?_word
      | false => exact (run?_of_step (show Scan.between.step? 'f' = _ from rfl)).trans run?_word
    | null => exact (run?_of_step (show Scan.between.step? 'n' = _ from rfl)).trans run?_word
    | leftBrace | rightBrace | leftBracket | rightBracket | comma | colon =>
      exact run?_of_yield (by rfl)

end Scan

/-- What spells some tokens is read as those. -/
theorem tokens?_of_spells {ts : List Token} {text : List Char} (h : Spells ts text) :
    tokens? text = some ts := by
  induction h with
  | nil => rfl
  | @blank ts c text hc h ih =>
    have hstep : Scan.between.step? c = some ([], .between) := by
      change begin? c = _
      unfold begin?
      exact if_pos hc
    rw [tokens?, Scan.run?_of_step hstep]
    exact ih
  | token ht hn h ih =>
    rw [tokens?] at ih ⊢
    rw [Scan.run?_token ht hn, ih]
    rfl

end SandboxMounts.Json
