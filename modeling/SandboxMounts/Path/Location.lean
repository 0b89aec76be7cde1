import SandboxMounts.Path.Basic

/-!
A location is the list of names that lead to a place, innermost first, so that the directory above is
the tail. The normal form of a path is the location that its components name one after another.
-/

set_option autoImplicit false

namespace SandboxMounts

abbrev Location := List Name

namespace Location

def spell : Location → Bytes
  | [] => []
  | n :: above => spell above ++ slash :: n

def path : Location → Path
  | [] => ⟨[slash]⟩
  | n :: above => ⟨spell (n :: above)⟩

/-- `..` steps to the directory above and stays at the root. -/
def push (l : Location) : Component → Location
  | .root => []
  | .here => l
  | .up => l.tail
  | .name n => n :: l

end Location

/-- Where the components lead from `cwd`, without a look at any link. -/
def Path.normalize (cwd : Location) (p : Path) : Location :=
  p.components.foldl Location.push cwd

@[simp] theorem Location.path_nil : Location.path [] = ⟨[slash]⟩ := rfl

theorem Location.head?_spell_cons (n : Name) (l : Location) :
    (Location.spell (n :: l)).head? = some slash := by
  induction l generalizing n with
  | nil => rfl
  | cons m above ih =>
    have h := ih m
    rw [Location.spell, List.head?_append, h]
    rfl

theorem Location.path_isAbsolute (l : Location) : l.path.isAbsolute = true := by
  cases l with
  | nil => rfl
  | cons n above => simp [Location.path, Path.isAbsolute, head?_spell_cons n above]

end SandboxMounts
