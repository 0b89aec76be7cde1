import SandboxMounts.Text.Utf8

/-!
Cutting bytes apart at separators. Every separator cuts, so empty parts are kept, and joining the
parts of a cut at one byte gives the bytes back.
-/

set_option autoImplicit false

namespace SandboxMounts.Bytes

def splitWhen (isSeparator : UInt8 → Bool) : Bytes → List Bytes
  | [] => [[]]
  | b :: r =>
    if isSeparator b then [] :: splitWhen isSeparator r
    else
      match splitWhen isSeparator r with
      | [] => [[b]]
      | s :: ss => (b :: s) :: ss

def joinWith (separator : UInt8) : List Bytes → Bytes
  | [] => []
  | [s] => s
  | s :: ss => s ++ separator :: joinWith separator ss

theorem splitWhen_ne_nil (p : UInt8 → Bool) (bs : Bytes) : splitWhen p bs ≠ [] := by
  cases bs with
  | nil => simp [splitWhen]
  | cons b r =>
    simp only [splitWhen]
    split
    · simp
    · split <;> simp

theorem joinWith_cons_cons (x b : UInt8) (s : Bytes) (ss : List Bytes) :
    joinWith x ((b :: s) :: ss) = b :: joinWith x (s :: ss) := by
  cases ss <;> simp [joinWith]

theorem joinWith_splitWhen (x : UInt8) (bs : Bytes) : joinWith x (splitWhen (· == x) bs) = bs := by
  induction bs with
  | nil => rfl
  | cons b r ih =>
    obtain ⟨s, ss, hs⟩ := List.exists_cons_of_ne_nil (splitWhen_ne_nil (· == x) r)
    rw [hs] at ih
    by_cases h : b = x
    · simp [splitWhen, h, hs, joinWith, ih]
    · simp [splitWhen, h, hs, joinWith_cons_cons, ih]

end SandboxMounts.Bytes
