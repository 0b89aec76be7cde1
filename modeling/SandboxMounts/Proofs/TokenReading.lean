import SandboxMounts.Proofs.TokenSpelling

/-!
What the token reader has taken in. Whatever it reads as tokens are those tokens written one after
another, and the literals it takes for numbers are the numerals of the grammar.
-/

set_option autoImplicit false

namespace SandboxMounts.Json

/-! ### Numerals -/

def AreDigits (ds : List Char) : Prop := ∀ c ∈ ds, c.isDigit = true

def IsWhole (ds : List Char) : Prop := AreDigits ds ∧ ds ≠ [] ∧ (ds.head? = some '0' → ds = ['0'])

def IsFraction (text : List Char) : Prop :=
  text = [] ∨ ∃ ds, AreDigits ds ∧ ds ≠ [] ∧ text = '.' :: ds

def IsExponent (text : List Char) : Prop :=
  text = [] ∨ ∃ mark sign ds, (mark = 'e' ∨ mark = 'E') ∧ (sign = [] ∨ sign = ['+'] ∨ sign = ['-']) ∧
    AreDigits ds ∧ ds ≠ [] ∧ text = mark :: sign ++ ds

def IsNumeral (literal : List Char) : Prop :=
  ∃ sign whole fraction exponent, (sign = [] ∨ sign = ['-']) ∧ IsWhole whole ∧ IsFraction fraction ∧
    IsExponent exponent ∧ literal = sign ++ whole ++ fraction ++ exponent

namespace NumberPart

variable {part p last : NumberPart} {c : Char} {r ds text : List Char}

/-- What can still come after this part of a number. -/
def GoesOn : NumberPart → List Char → Prop
  | .minus, r => ∃ whole fraction exponent, IsWhole whole ∧ IsFraction fraction ∧
      IsExponent exponent ∧ r = whole ++ fraction ++ exponent
  | .zero, r => ∃ fraction exponent, IsFraction fraction ∧ IsExponent exponent ∧
      r = fraction ++ exponent
  | .digits, r => ∃ ds fraction exponent, AreDigits ds ∧ IsFraction fraction ∧
      IsExponent exponent ∧ r = ds ++ fraction ++ exponent
  | .point, r => ∃ ds exponent, AreDigits ds ∧ ds ≠ [] ∧ IsExponent exponent ∧ r = ds ++ exponent
  | .fraction, r => ∃ ds exponent, AreDigits ds ∧ IsExponent exponent ∧ r = ds ++ exponent
  | .mark, r => ∃ sign ds, (sign = [] ∨ sign = ['+'] ∨ sign = ['-']) ∧ AreDigits ds ∧ ds ≠ [] ∧
      r = sign ++ ds
  | .sign, r => AreDigits r ∧ r ≠ []
  | .exponent, r => AreDigits r

theorem areDigits_nil : AreDigits [] := fun c hc => by cases hc

theorem areDigits_cons (hc : c.isDigit = true) (hds : AreDigits ds) : AreDigits (c :: ds) :=
  List.forall_mem_cons.2 ⟨hc, hds⟩

theorem goesOn_nil (hp : part.isComplete = true) : part.GoesOn [] := by
  cases part with
  | minus | point | mark | sign => cases hp
  | zero => exact ⟨[], [], .inl rfl, .inl rfl, rfl⟩
  | digits => exact ⟨[], [], [], areDigits_nil, .inl rfl, .inl rfl, rfl⟩
  | fraction => exact ⟨[], [], areDigits_nil, .inl rfl, rfl⟩
  | exponent => exact areDigits_nil

theorem isExponent_of_mark (hc : c = 'e' ∨ c = 'E') (hr : NumberPart.mark.GoesOn r) :
    IsExponent (c :: r) := by
  obtain ⟨sign, ds, hs, hds, hne, rfl⟩ := hr
  exact .inr ⟨c, sign, ds, hc, hs, hds, hne, rfl⟩

theorem exists_fraction (hr : NumberPart.point.GoesOn r) :
    ∃ fraction exponent, IsFraction fraction ∧ IsExponent exponent ∧
      '.' :: r = fraction ++ exponent := by
  obtain ⟨ds, exponent, hds, hne, he, rfl⟩ := hr
  exact ⟨'.' :: ds, exponent, .inr ⟨ds, hds, hne, rfl⟩, he, rfl⟩

theorem GoesOn.cons (hn : part.next? c = some p) (hr : p.GoesOn r) : part.GoesOn (c :: r) := by
  cases part with
  | minus =>
    simp only [next?] at hn
    split at hn
    · rename_i hc
      cases hn
      obtain ⟨fraction, exponent, hf, he, rfl⟩ := hr
      refine ⟨['0'], fraction, exponent, ⟨?_, by simp, fun _ => rfl⟩, hf, he, by simp [hc]⟩
      exact areDigits_cons rfl areDigits_nil
    split at hn
    · rename_i hc hd
      cases hn
      obtain ⟨ds, fraction, exponent, hds, hf, he, rfl⟩ := hr
      have hwhole : IsWhole (c :: ds) :=
        ⟨areDigits_cons hd hds, by simp, fun h0 => absurd (Option.some.inj h0) hc⟩
      exact ⟨c :: ds, fraction, exponent, hwhole, hf, he, rfl⟩
    · cases hn
  | zero =>
    simp only [next?] at hn
    split at hn
    · rename_i hc
      cases hn
      rw [hc]
      exact exists_fraction hr
    split at hn
    · rename_i hc
      cases hn
      exact ⟨[], c :: r, .inl rfl, isExponent_of_mark hc hr, rfl⟩
    · cases hn
  | digits =>
    simp only [next?] at hn
    split at hn
    · rename_i hd
      cases hn
      obtain ⟨ds, fraction, exponent, hds, hf, he, rfl⟩ := hr
      exact ⟨c :: ds, fraction, exponent, areDigits_cons hd hds, hf, he, rfl⟩
    split at hn
    · rename_i hc
      cases hn
      obtain ⟨fraction, exponent, hf, he, htext⟩ := exists_fraction hr
      rw [hc]
      exact ⟨[], fraction, exponent, areDigits_nil, hf, he, htext⟩
    split at hn
    · rename_i hc
      cases hn
      exact ⟨[], [], c :: r, areDigits_nil, .inl rfl, isExponent_of_mark hc hr, rfl⟩
    · cases hn
  | point =>
    simp only [next?] at hn
    split at hn <;> cases hn
    rename_i hd
    obtain ⟨ds, exponent, hds, he, rfl⟩ := hr
    exact ⟨c :: ds, exponent, areDigits_cons hd hds, by simp, he, rfl⟩
  | fraction =>
    simp only [next?] at hn
    split at hn
    · rename_i hd
      cases hn
      obtain ⟨ds, exponent, hds, he, rfl⟩ := hr
      exact ⟨c :: ds, exponent, areDigits_cons hd hds, he, rfl⟩
    split at hn
    · rename_i hc
      cases hn
      exact ⟨[], c :: r, areDigits_nil, isExponent_of_mark hc hr, rfl⟩
    · cases hn
  | mark =>
    simp only [next?] at hn
    split at hn
    · rename_i hd
      cases hn
      exact ⟨[], c :: r, .inl rfl, areDigits_cons hd hr, by simp, rfl⟩
    split at hn
    · rename_i hc
      cases hn
      obtain ⟨hds, hne⟩ := hr
      refine ⟨[c], r, .inr ?_, hds, hne, rfl⟩
      rcases hc with rfl | rfl
      · exact .inl rfl
      · exact .inr rfl
    · cases hn
  | sign =>
    simp only [next?] at hn
    split at hn <;> cases hn
    exact ⟨areDigits_cons ‹_› hr, by simp⟩
  | exponent =>
    simp only [next?] at hn
    split at hn <;> cases hn
    exact areDigits_cons ‹_› hr

theorem goesOn_of_foldlM (hr : r.foldlM next? part = some last) (hl : last.isComplete = true) :
    part.GoesOn r := by
  induction r generalizing part with
  | nil =>
    cases hr
    exact goesOn_nil hl
  | cons c r ih =>
    obtain ⟨p, hp, hr⟩ := Option.bind_eq_some_iff.1 hr
    exact .cons hp (ih hr)

/-! The other way round: the parts of a numeral are gone through one after another. -/

theorem foldlM_loop (hp : ∀ c : Char, c.isDigit = true → part.next? c = some part)
    (hds : AreDigits ds) : ds.foldlM next? part = some part := by
  induction ds with
  | nil => rfl
  | cons c ds ih =>
    obtain ⟨hc, hds⟩ := List.forall_mem_cons.1 hds
    rw [List.foldlM_cons, hp c hc]
    exact ih hds

theorem foldlM_digits_of_ne_nil (hp : ∀ c : Char, c.isDigit = true → part.next? c = some p)
    (hloop : ∀ c : Char, c.isDigit = true → p.next? c = some p) (hds : AreDigits ds) (hne : ds ≠ []) :
    ds.foldlM next? part = some p := by
  obtain ⟨c, ds, rfl⟩ := List.exists_cons_of_ne_nil hne
  obtain ⟨hc, hds⟩ := List.forall_mem_cons.1 hds
  rw [List.foldlM_cons, hp c hc]
  exact foldlM_loop hloop hds

theorem foldlM_exponent (hp : part = .zero ∨ part = .digits ∨ part = .fraction)
    (he : IsExponent text) : ∃ last, text.foldlM next? part = some last ∧ last.isComplete = true := by
  rcases he with rfl | ⟨mark, sign, ds, hm, hs, hds, hne, rfl⟩
  · exact ⟨part, rfl, by rcases hp with rfl | rfl | rfl <;> rfl⟩
  refine ⟨.exponent, ?_, rfl⟩
  have hnext : part.next? mark = some .mark := by
    rcases hm with rfl | rfl <;> rcases hp with rfl | rfl | rfl <;> rfl
  have hloop : ∀ c : Char, c.isDigit = true → NumberPart.exponent.next? c = some .exponent :=
    fun c hc => if_pos hc
  have hmark : ds.foldlM next? NumberPart.mark = some .exponent :=
    foldlM_digits_of_ne_nil (fun c hc => if_pos hc) hloop hds hne
  have hsign : ds.foldlM next? NumberPart.sign = some .exponent :=
    foldlM_digits_of_ne_nil (fun c hc => if_pos hc) hloop hds hne
  rw [List.cons_append, List.foldlM_cons, hnext]
  rcases hs with rfl | rfl | rfl
  · exact hmark
  · exact hsign
  · exact hsign

theorem foldlM_fraction (hp : part = .zero ∨ part = .digits) (hf : IsFraction text) :
    ∃ p, text.foldlM next? part = some p ∧ (p = .zero ∨ p = .digits ∨ p = .fraction) := by
  rcases hf with rfl | ⟨ds, hds, hne, rfl⟩
  · exact ⟨part, rfl, by rcases hp with rfl | rfl <;> simp⟩
  · have hnext : part.next? '.' = some .point := by rcases hp with rfl | rfl <;> rfl
    have hpoint : ds.foldlM next? NumberPart.point = some .fraction :=
      foldlM_digits_of_ne_nil (fun c hc => if_pos hc) (fun c hc => if_pos hc) hds hne
    refine ⟨.fraction, ?_, .inr (.inr rfl)⟩
    rw [List.foldlM_cons, hnext]
    exact hpoint

theorem foldlM_whole (hw : IsWhole ds) :
    ∃ c r first, ds = c :: r ∧ NumberPart.minus.next? c = some first ∧
      (first = .zero ∨ first = .digits) ∧ r.foldlM next? first = some first := by
  obtain ⟨hds, hne, hzero⟩ := hw
  obtain ⟨c, r, rfl⟩ := List.exists_cons_of_ne_nil hne
  obtain ⟨hc, hr⟩ := List.forall_mem_cons.1 hds
  by_cases h0 : c = '0'
  · subst h0
    obtain rfl : r = [] := (List.cons.inj (hzero rfl)).2
    exact ⟨'0', [], .zero, rfl, rfl, .inl rfl, rfl⟩
  · refine ⟨c, r, .digits, rfl, ?_, .inr rfl, foldlM_loop (fun c hc => if_pos hc) hr⟩
    rw [next?, if_neg h0, if_pos hc]

theorem isDigit_of_next? (hn : NumberPart.minus.next? c = some p) : c.isDigit = true := by
  simp only [next?] at hn
  split at hn
  · rename_i hc
    rw [hc]
    rfl
  split at hn
  · assumption
  · cases hn

end NumberPart

theorem exists_of_isDigit {c : Char} (hc : c.isDigit = true) :
    ∃ n : Fin 10, c = Char.ofNat (48 + n) := by
  have hrange : 48 ≤ c.toNat ∧ c.toNat ≤ 57 := Char.isDigit_iff_toNat.1 hc
  refine ⟨⟨c.toNat - 48, by omega⟩, ?_⟩
  rw [Nat.add_sub_cancel' hrange.1, Char.ofNat_toNat]

theorem begin?_of_isDigit {c : Char} (hc : c.isDigit = true) :
    begin? c = (NumberPart.minus.next? c).map fun first => ([], .number first [c]) := by
  have hall : ∀ n : Fin 10, begin? (Char.ofNat (48 + n)) =
      (NumberPart.minus.next? (Char.ofNat (48 + n))).map fun first =>
        ([], .number first [Char.ofNat (48 + n)]) := by decide
  obtain ⟨n, rfl⟩ := exists_of_isDigit hc
  exact hall n

namespace Scan

variable {st st' : Scan} {c : Char} {text word : List Char} {ts : List Token}

inductive Holds : Scan → List Char → Prop
  | between : Holds .between []
  | string {read : List Piece} {parts : List (List Char)}
    (hp : List.Forall₂ Piece.Spelled read.reverse parts) : Holds (.string read) ('"' :: parts.flatten)
  | escape {read : List Piece} {parts : List (List Char)}
    (hp : List.Forall₂ Piece.Spelled read.reverse parts) :
    Holds (.escape read) ('"' :: parts.flatten ++ ['\\'])
  | unit {read : List Piece} {parts : List (List Char)} {digits : List Char} {ds : List Nat}
    {owed : Nat} (hp : List.Forall₂ Piece.Spelled read.reverse parts)
    (hd : List.Forall₂ (fun c d => hexValue? c = some d) digits ds)
    (ho : digits.length + owed = 4) (hpos : 0 < owed) :
    Holds (.unit read (ds.foldl (fun value d => value * 16 + d) 0) owed)
      ('"' :: parts.flatten ++ '\\' :: 'u' :: digits)
  | number {c : Char} {r : List Char} {first part : NumberPart}
    (hb : begin? c = some ([], .number first [c]))
    (hr : r.foldlM NumberPart.next? first = some part) :
    Holds (.number part (c :: r).reverse) (c :: r)
  | word {before rest : List Char} {t : Token} (ht : t.Spelled t.text) (hr : rest ≠ [])
    (htext : t.text = before ++ rest) : Holds (.word rest t) before

theorem begin?_cases (hb : begin? c = some (ts, st)) :
    (isBlank c = true ∧ ts = [] ∧ st = .between) ∨
      (∃ t : Token, t.Spelled [c] ∧ ts = [t] ∧ st = .between) ∨ (ts = [] ∧ st.Holds [c]) := by
  have hbegin := hb
  unfold begin? at hb
  split at hb
  · cases hb
    exact .inl ⟨‹_›, rfl, rfl⟩
  have number : ∀ first, begin? c = some ([], .number first [c]) →
      (Scan.number first [c]).Holds [c] := fun first hfirst => .number (r := []) hfirst rfl
  right
  split at hb
  · cases hb
    exact .inl ⟨.leftBrace, .of_isMark rfl, rfl, rfl⟩
  · cases hb
    exact .inl ⟨.rightBrace, .of_isMark rfl, rfl, rfl⟩
  · cases hb
    exact .inl ⟨.leftBracket, .of_isMark rfl, rfl, rfl⟩
  · cases hb
    exact .inl ⟨.rightBracket, .of_isMark rfl, rfl, rfl⟩
  · cases hb
    exact .inl ⟨.comma, .of_isMark rfl, rfl, rfl⟩
  · cases hb
    exact .inl ⟨.colon, .of_isMark rfl, rfl, rfl⟩
  · cases hb
    have hnone : List.Forall₂ Piece.Spelled (List.reverse []) [] := .nil
    exact .inr ⟨rfl, .string hnone⟩
  · cases hb
    exact .inr ⟨rfl, number _ rfl⟩
  · cases hb
    exact .inr ⟨rfl, number _ rfl⟩
  · cases hb
    exact .inr ⟨rfl, .word (.of_isMark rfl) (by simp) rfl⟩
  · cases hb
    exact .inr ⟨rfl, .word (.of_isMark rfl) (by simp) rfl⟩
  · cases hb
    exact .inr ⟨rfl, .word (.of_isMark rfl) (by simp) rfl⟩
  · split at hb
    · cases hb
      exact .inr ⟨rfl, number _ hbegin⟩
    · cases hb

theorem next?_of_begin? {first : NumberPart} (hb : begin? c = some ([], .number first [c])) :
    c = '-' ∧ first = .minus ∨ NumberPart.minus.next? c = some first := by
  by_cases hd : c.isDigit = true
  · rw [begin?_of_isDigit hd] at hb
    obtain ⟨first', hfirst, heq⟩ := Option.map_eq_some_iff.1 hb
    cases heq
    exact .inr hfirst
  · unfold begin? at hb
    split at hb
    · cases hb
    split at hb <;> try cases hb
    · exact .inl ⟨rfl, rfl⟩
    · exact absurd rfl hd

theorem isNumber_iff {literal : List Char} : IsNumber literal ↔ IsNumeral literal := by
  constructor
  · intro hl
    obtain ⟨c, r, first, last, rfl, hb, hr, hlast⟩ := hl.parts
    have hgoes := NumberPart.goesOn_of_foldlM hr hlast
    rcases next?_of_begin? hb with ⟨rfl, rfl⟩ | hn
    · obtain ⟨whole, fraction, exponent, hw, hf, he, rfl⟩ := hgoes
      exact ⟨['-'], whole, fraction, exponent, .inr rfl, hw, hf, he, rfl⟩
    · obtain ⟨whole, fraction, exponent, hw, hf, he, htext⟩ := hgoes.cons hn
      exact ⟨[], whole, fraction, exponent, .inl rfl, hw, hf, he, htext⟩
  · intro hl
    obtain ⟨sign, whole, fraction, exponent, hs, hw, hf, he, rfl⟩ := hl
    obtain ⟨c, r, first, rfl, hminus, hfirst, hr⟩ := NumberPart.foldlM_whole hw
    obtain ⟨p, hp, hpart⟩ := NumberPart.foldlM_fraction hfirst hf
    obtain ⟨last, hlast, hend⟩ := NumberPart.foldlM_exponent hpart he
    have hrest : (r ++ fraction ++ exponent).foldlM NumberPart.next? first = some last := by
      simp only [List.foldlM_append, hr, hp, hlast, Option.bind_eq_bind, Option.bind_some]
    have hbegin : begin? c = some ([], .number first [c]) := by
      rw [begin?_of_isDigit (NumberPart.isDigit_of_next? hminus), hminus]
      rfl
    rcases hs with rfl | rfl
    · exact ⟨c, r ++ fraction ++ exponent, first, last, rfl, hbegin, hrest, hend⟩
    · refine ⟨'-', c :: (r ++ fraction ++ exponent), .minus, last, rfl, rfl, ?_, hend⟩
      rw [List.foldlM_cons, hminus]
      exact hrest

theorem Holds.string_snoc {read : List Piece} {parts : List (List Char)} {p : Piece}
    (hp : List.Forall₂ Piece.Spelled read.reverse parts) (hlast : p.Spelled word) :
    (Scan.string (p :: read)).Holds ('"' :: (parts.flatten ++ word)) := by
  have hmore : List.Forall₂ Piece.Spelled (p :: read).reverse (parts ++ [word]) := by
    rw [List.reverse_cons]
    exact List.rel_append hp (.cons hlast .nil)
  have hholds := Holds.string hmore
  rwa [List.flatten_append, List.flatten_singleton] at hholds

/-- One character more: it belongs to the token under way, or completes it, or it comes after it and
begins anew. -/
theorem Holds.step (hh : st.Holds word) (hs : st.step? c = some (ts, st')) :
    (ts = [] ∧ st'.Holds (word ++ [c])) ∨
      (∃ t : Token, t.Spelled (word ++ [c]) ∧ ts = [t] ∧ st' = .between) ∨
      ∃ ended ts', (word = [] ∧ ended = [] ∨ ∃ t : Token, t.Spelled word ∧ ended = [t]) ∧
        ts = ended ++ ts' ∧ begin? c = some (ts', st') := by
  cases hh with
  | between => exact .inr (.inr ⟨[], ts, .inl ⟨rfl, rfl⟩, rfl, hs⟩)
  | @string read parts hp =>
    rw [step?] at hs
    split at hs
    · rename_i hc
      cases hs
      rw [hc]
      exact .inr (.inl ⟨_, .string hp, rfl, rfl⟩)
    split at hs
    · rename_i hc
      cases hs
      rw [hc]
      exact .inl ⟨rfl, .escape hp⟩
    split at hs <;> cases hs
    rename_i hquote hback hlow
    exact .inl ⟨rfl, .string_snoc hp (.plain hquote hback hlow)⟩
  | @escape read parts hp =>
    rw [step?] at hs
    left
    split at hs
    · rename_i hc
      cases hs
      rw [hc, List.append_assoc]
      exact ⟨rfl, .unit hp .nil rfl (Nat.succ_pos 3)⟩
    · obtain ⟨e, he, heq⟩ := Option.map_eq_some_iff.1 hs
      cases heq
      rw [List.cons_append, List.cons_append, List.append_assoc]
      exact ⟨rfl, .string_snoc hp (.letter he)⟩
  | @unit read parts digits ds owed hp hd ho hpos =>
    rw [step?] at hs
    obtain ⟨d, hdigit, heq⟩ := Option.map_eq_some_iff.1 hs
    have hmore := List.rel_append hd (.cons hdigit .nil)
    left
    rcases owed with _ | _ | k
    · cases hpos
    · cases heq
      obtain ⟨c₁, c₂, c₃, rfl⟩ := List.length_eq_three.1 (Nat.succ.inj ho)
      obtain _ | ⟨h₁, _ | ⟨h₂, _ | ⟨h₃, _ | _⟩⟩⟩ := hd
      have hunit := Piece.Spelled.unit h₁ h₂ h₃ hdigit
      rw [List.cons_append, List.cons_append, List.append_assoc]
      simpa using Holds.string_snoc hp hunit
    · cases heq
      refine ⟨rfl, ?_⟩
      have hholds := Holds.unit hp hmore (by simp; omega) (Nat.succ_pos k)
      rw [List.foldl_append] at hholds
      simpa using hholds
  | @number c' r first part hb hr =>
    rw [step?] at hs
    split at hs
    · rename_i p hp
      cases hs
      left
      refine ⟨rfl, ?_⟩
      have hmore : (r ++ [c]).foldlM NumberPart.next? first = some p := by
        simp only [List.foldlM_append, hr, Option.bind_eq_bind, Option.bind_some,
          List.foldlM_cons, hp]
        rfl
      have hholds := Holds.number hb hmore
      rwa [← List.cons_append, List.reverse_append] at hholds
    split at hs
    · rename_i hcomplete
      obtain ⟨out, hout, heq⟩ := Option.map_eq_some_iff.1 hs
      cases heq
      have hnumber : IsNumber (c' :: r) := ⟨c', r, first, part, rfl, hb, hr, hcomplete⟩
      refine .inr (.inr ⟨[.number (c' :: r)], out.1, .inr ⟨_, .number hnumber, rfl⟩, ?_, hout⟩)
      rw [List.reverse_reverse]
      rfl
    · cases hs
  | @word before rest t ht hr htext =>
    obtain ⟨w, rest, rfl⟩ := List.exists_cons_of_ne_nil hr
    rw [step?.eq_def] at hs
    simp only at hs
    split at hs
    · rename_i hc
      subst hc
      cases rest with
      | nil =>
        cases hs
        rw [← htext]
        exact .inr (.inl ⟨_, ht, rfl, rfl⟩)
      | cons w rest =>
        cases hs
        exact .inl ⟨rfl, .word ht (by simp) (by simp [htext])⟩
    · cases hs

theorem Holds.finish (hh : st.Holds word) (hf : st.finish? = some ts) :
    word = [] ∧ ts = [] ∨ ∃ t : Token, t.Spelled word ∧ ts = [t] := by
  cases hh with
  | between =>
    cases hf
    exact .inl ⟨rfl, rfl⟩
  | @number c r first part hb hr =>
    rw [finish?] at hf
    split at hf <;> cases hf
    rename_i hcomplete
    rw [List.reverse_reverse]
    exact .inr ⟨_, .number ⟨c, r, first, part, rfl, hb, hr, hcomplete⟩, rfl⟩
  | string | escape | unit | word => cases hf

end Scan

/-- The tokens one after another with blanks at will, be it that they can be told apart or not. -/
inductive LaidOut : List Token → List Char → Prop
  | nil : LaidOut [] []
  | blank {ts : List Token} {c : Char} {text : List Char} (hc : isBlank c = true)
    (h : LaidOut ts text) : LaidOut ts (c :: text)
  | token {t : Token} {ts : List Token} {word text : List Char} (ht : t.Spelled word)
    (h : LaidOut ts text) : LaidOut (t :: ts) (word ++ text)

theorem LaidOut.of_ended {ended ts : List Token} {word text : List Char} (h : LaidOut ts text)
    (he : word = [] ∧ ended = [] ∨ ∃ t : Token, t.Spelled word ∧ ended = [t]) :
    LaidOut (ended ++ ts) (word ++ text) := by
  rcases he with ⟨rfl, rfl⟩ | ⟨t, ht, rfl⟩
  · exact h
  · exact .token ht h

theorem Scan.Holds.laidOut {st : Scan} {word text : List Char} {ts : List Token}
    (hh : st.Holds word) (hr : st.run? text = some ts) : LaidOut ts (word ++ text) := by
  -- the token under way and the rest of the text stay together what is to be laid out
  induction text generalizing st word ts with
  | nil =>
    rw [← List.append_nil ts]
    exact LaidOut.nil.of_ended (hh.finish hr)
  | cons c r ih =>
    rw [run?_cons] at hr
    obtain ⟨⟨now, st'⟩, hstep, hr⟩ := Option.bind_eq_some_iff.1 hr
    obtain ⟨later, hlater, rfl⟩ := Option.map_eq_some_iff.1 hr
    rcases hh.step hstep with ⟨rfl, hmore⟩ | ⟨t, ht, rfl, rfl⟩ | ⟨ended, ts', hended, rfl, hb⟩
    · simpa using ih hmore hlater
    · simpa using LaidOut.token ht (ih .between hlater)
    · rw [List.append_assoc]
      refine LaidOut.of_ended ?_ hended
      rcases begin?_cases hb with ⟨hc, rfl, rfl⟩ | ⟨t, ht, rfl, rfl⟩ | ⟨rfl, hmore⟩
      · exact .blank hc (ih .between hlater)
      · exact .token ht (ih .between hlater)
      · exact ih hmore hlater

theorem laidOut_of_tokens? {text : List Char} {ts : List Token} (h : tokens? text = some ts) :
    LaidOut ts text :=
  Scan.Holds.between.laidOut h

end SandboxMounts.Json
