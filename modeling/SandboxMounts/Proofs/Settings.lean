import SandboxMounts.Config.Load
import SandboxMounts.Proofs.Effects
import SandboxMounts.Proofs.Encoding

/-!
The configuration in effect. What a file gives is kept apart from what the defaults fill in, and the
ways to be refused stand in the order in which they are met.
-/

set_option autoImplicit false

namespace SandboxMounts.Config

variable {c : Config} {key : String} {path p : Path} {h : Host} {file sharedDir : Option Path}

structure Given where
  sharedDir : Option Path
  mountTable : Option Path
  sysfsBlockDir : Option Path

def Given.nothing : Given := ⟨none, none, none⟩

def Given.filled (g : Given) : Config where
  sharedDir := g.sharedDir.getD default.sharedDir
  mountTable := g.mountTable.getD default.mountTable
  sysfsBlockDir := g.sysfsBlockDir.getD default.sysfsBlockDir

def givenPath? : Option Json → Option (Option Path)
  | none => some none
  | some v => v.string?.map (some ∘ Path.ofString)

def given? (v : Json) : Option Given := do
  match ← v.fields? (keys.map String.toList) with
  | [sharedDir, mountTable, sysfsBlockDir] =>
    return ⟨← givenPath? sharedDir, ← givenPath? mountTable, ← givenPath? sysfsBlockDir⟩
  | _ => none

theorem field?_eq (given : Option Json) (otherwise : Path) :
    field? given otherwise = (givenPath? given).map (·.getD otherwise) := by
  cases given with
  | none => rfl
  | some v => cases hv : v.string? <;> simp [field?, givenPath?, hv]

/-- To read a configuration is to read what is given and to fill in the rest. -/
theorem ofJson?_eq (v : Json) : ofJson? v = (given? v).map Given.filled := by
  unfold ofJson? given?
  cases v.fields? (keys.map String.toList) with
  | none => rfl
  | some fields =>
    match fields with
    | [sharedDir, mountTable, sysfsBlockDir] =>
      simp only [Option.bind_eq_bind, Option.bind_some, field?_eq]
      cases givenPath? sharedDir <;> cases givenPath? mountTable <;>
        cases givenPath? sysfsBlockDir <;> rfl
    | [] | [_] | [_, _] | _ :: _ :: _ :: _ :: _ => rfl

/-! ### The check -/

structure IsAbsolute (c : Config) : Prop where
  sharedDir : c.sharedDir.isAbsolute = true
  mountTable : c.mountTable.isAbsolute = true
  sysfsBlockDir : c.sysfsBlockDir.isAbsolute = true

inductive FirstRelative (c : Config) : String → Path → Prop
  | sharedDir (hs : c.sharedDir.isAbsolute = false) : FirstRelative c "shared_dir" c.sharedDir
  | mountTable (hs : c.sharedDir.isAbsolute = true) (hm : c.mountTable.isAbsolute = false) :
    FirstRelative c "mount_table" c.mountTable
  | sysfsBlockDir (hs : c.sharedDir.isAbsolute = true) (hm : c.mountTable.isAbsolute = true)
    (hb : c.sysfsBlockDir.isAbsolute = false) : FirstRelative c "sysfs_block_dir" c.sysfsBlockDir

def notAbsolute (key : String) (path : Path) : Error :=
  .config s!"{key} must be an absolute path, got {path.display}"

theorem IsAbsolute.check (hc : c.IsAbsolute) : c.check = .ok () := by
  simp [Config.check, firstRelative?, keys, paths, hc.sharedDir, hc.mountTable, hc.sysfsBlockDir]

theorem FirstRelative.check (hc : c.FirstRelative key path) :
    c.check = .error (notAbsolute key path) := by
  cases hc <;> simp [Config.check, firstRelative?, keys, paths, notAbsolute, *]

theorem isAbsolute_or_firstRelative (c : Config) :
    c.IsAbsolute ∨ ∃ key path, c.FirstRelative key path := by
  cases hs : c.sharedDir.isAbsolute with
  | false => exact .inr ⟨_, _, .sharedDir hs⟩
  | true =>
    cases hm : c.mountTable.isAbsolute with
    | false => exact .inr ⟨_, _, .mountTable hs hm⟩
    | true =>
      cases hb : c.sysfsBlockDir.isAbsolute with
      | false => exact .inr ⟨_, _, .sysfsBlockDir hs hm hb⟩
      | true => exact .inl ⟨hs, hm, hb⟩

/-! ### The file -/

def TextGives (text : String) (g : Given) : Prop :=
  ∃ v, Json.parse? text.toList = some v ∧ given? v = some g

def FileGives (h : Host) (g : Given) : Option Path → Prop
  | none => g = Given.nothing
  | some p => ∃ text, (Host.read p h).1 = .ok (Utf8.ofString text) ∧ TextGives text g

theorem ofText?_of_gives {text : String} {g : Given} (hg : TextGives text g) :
    ofText? text = some g.filled := by
  obtain ⟨v, hv, hg⟩ := hg
  rw [ofText?, hv, Option.bind_some, ofJson?_eq, hg, Option.map_some]

theorem ofText?_of_not_gives {text : String} (hg : ∀ g, ¬ TextGives text g) : ofText? text = none := by
  rw [ofText?]
  cases hv : Json.parse? text.toList with
  | none => rfl
  | some v =>
    rw [Option.bind_some, ofJson?_eq]
    cases hgiven : given? v with
    | none => rfl
    | some g => exact absurd ⟨v, hv, hgiven⟩ (hg g)

def checked (c : Config) : Except Error Config := c.check.map fun _ => c

theorem IsAbsolute.checked (hc : c.IsAbsolute) : c.checked = .ok c := by
  rw [Config.checked, hc.check]
  rfl

theorem FirstRelative.checked (hc : c.FirstRelative key path) :
    c.checked = .error (notAbsolute key path) := by
  rw [Config.checked, hc.check]
  rfl

theorem check_then_return (c : Config) (h : Host) :
    (do MonadExcept.ofExcept c.check; return c : Action Config) h = (c.checked, h) := by
  rw [Effect.bind_apply, Effect.ofExcept_apply, checked]
  cases c.check <;> rfl

theorem ofFile_of_error {e : IoError} (hr : (Host.read p h).1 = .error e) :
    (ofFile p h).1 = .error (cannotRead p e) := by
  have hread : Host.read p h = (.error e, (Host.read p h).2) := Prod.ext hr rfl
  rw [ofFile, Effect.bind_of_error (Effect.orFail_of_error hread)]

theorem ofFile_of_ok {content : Bytes} (hr : (Host.read p h).1 = .ok content) :
    (ofFile p h).1 = (ofBytes p content).bind checked := by
  have hread : Host.read p h = (.ok content, (Host.read p h).2) := Prod.ext hr rfl
  rw [ofFile, Effect.bind_of_ok (Effect.orFail_of_ok hread), Effect.bind_apply, Effect.ofExcept_apply]
  cases ofBytes p content with
  | error e => rfl
  | ok c => exact congrArg Prod.fst (check_then_return c _)

theorem ofBytes_ofString (p : Path) (text : String) :
    ofBytes p (Utf8.ofString text) = (ofText? text).elim (.error .serialization) .ok := by
  have hread : Utf8.text? (Utf8.ofString text) = some text := Utf8.text?_eq_some_iff.2 rfl
  cases hparse : ofText? text with
  | none => simp [ofBytes, hread, hparse]
  | some c => simp [ofBytes, hread, hparse]

theorem ofFile_of_gives {text : String} {g : Given} (hr : (Host.read p h).1 = .ok (Utf8.ofString text))
    (hg : TextGives text g) : (ofFile p h).1 = g.filled.checked := by
  rw [ofFile_of_ok hr, ofBytes_ofString, ofText?_of_gives hg]
  rfl

def replaced (c : Config) (sharedDir : Option Path) : Config :=
  { c with sharedDir := sharedDir.getD c.sharedDir }

def base (file : Option Path) (h : Host) : Except Error Config :=
  match file with
  | none => .ok default
  | some p => (ofFile p h).1

theorem inEffect_fst (file sharedDir : Option Path) (h : Host) :
    (inEffect file sharedDir h).1 = (base file h).bind fun c => (c.replaced sharedDir).checked := by
  cases file with
  | none => exact congrArg Prod.fst (check_then_return (default.replaced sharedDir) h)
  | some p =>
    obtain ⟨r, h', hfile⟩ : ∃ r h', ofFile p h = (r, h') := ⟨_, _, rfl⟩
    rw [base, hfile]
    cases r with
    | error e => exact congrArg Prod.fst (Effect.bind_of_error hfile)
    | ok c =>
      rw [inEffect, Effect.bind_of_ok hfile]
      exact congrArg Prod.fst (check_then_return (c.replaced sharedDir) h')

/-! ### The outcome -/

/-- The file, if there is one, is sound and leaves all paths absolute, and so is the path beside it. -/
inductive Accepts (file sharedDir : Option Path) (h : Host) : Config → Prop
  | mk {g : Given} (hg : FileGives h g file) (ha : g.filled.IsAbsolute)
    (hd : ∀ d ∈ sharedDir, d.isAbsolute = true) :
    Accepts file sharedDir h (g.filled.replaced sharedDir)

/-- Why there is no configuration, in the order in which it shows. -/
inductive Rejects (file sharedDir : Option Path) (h : Host) : Error → Prop
  | unreadable {p : Path} {e : IoError} (hp : file = some p) (hr : (Host.read p h).1 = .error e) :
    Rejects file sharedDir h (cannotRead p e)
  | notText {p : Path} {content : Bytes} (hp : file = some p) (hr : (Host.read p h).1 = .ok content)
    (ht : ∀ text, Utf8.ofString text ≠ content) : Rejects file sharedDir h (cannotRead p .notUtf8)
  | notGiven {p : Path} {text : String} (hp : file = some p)
    (hr : (Host.read p h).1 = .ok (Utf8.ofString text)) (hg : ∀ g, ¬ TextGives text g) :
    Rejects file sharedDir h .serialization
  | relative {g : Given} {key : String} {path : Path} (hg : FileGives h g file)
    (hf : g.filled.FirstRelative key path) : Rejects file sharedDir h (notAbsolute key path)
  | relativeBeside {g : Given} {d : Path} (hg : FileGives h g file) (ha : g.filled.IsAbsolute)
    (hd : sharedDir = some d) (hr : d.isAbsolute = false) :
    Rejects file sharedDir h (notAbsolute "shared_dir" d)

theorem base_of_gives {g : Given} (hg : FileGives h g file) : base file h = g.filled.checked := by
  cases file with
  | none =>
    obtain rfl : g = .nothing := hg
    have hd : Given.nothing.filled.IsAbsolute := ⟨by decide, by decide, by decide⟩
    exact hd.checked.symm
  | some p =>
    obtain ⟨text, hr, hg⟩ := hg
    exact ofFile_of_gives hr hg

theorem IsAbsolute.replaced (hc : c.IsAbsolute) (hd : ∀ d ∈ sharedDir, d.isAbsolute = true) :
    (c.replaced sharedDir).IsAbsolute := by
  refine ⟨?_, hc.mountTable, hc.sysfsBlockDir⟩
  cases sharedDir with
  | none => exact hc.sharedDir
  | some d => exact hd d rfl

theorem Accepts.inEffect (hc : Accepts file sharedDir h c) :
    (Config.inEffect file sharedDir h).1 = .ok c := by
  obtain ⟨hg, ha, hd⟩ := hc
  rw [inEffect_fst, base_of_gives hg, ha.checked]
  exact (ha.replaced hd).checked

theorem Rejects.inEffect {e : Error} (he : Rejects file sharedDir h e) :
    (Config.inEffect file sharedDir h).1 = .error e := by
  rw [inEffect_fst]
  cases he with
  | unreadable hp hr =>
    subst hp
    rw [base, ofFile_of_error hr]
    rfl
  | @notText p content hp hr ht =>
    subst hp
    have hnone : Utf8.text? content = none := Option.eq_none_iff_forall_ne_some.2 fun text htext =>
      ht text (Utf8.text?_eq_some_iff.1 htext)
    rw [base, ofFile_of_ok hr, ofBytes, hnone]
    rfl
  | notGiven hp hr hg =>
    subst hp
    rw [base, ofFile_of_ok hr, ofBytes_ofString, ofText?_of_not_gives hg]
    rfl
  | relative hg hf =>
    rw [base_of_gives hg, hf.checked]
    rfl
  | @relativeBeside g d hg ha hd hr =>
    subst hd
    rw [base_of_gives hg, ha.checked]
    exact FirstRelative.checked (.sharedDir hr)

end SandboxMounts.Config
