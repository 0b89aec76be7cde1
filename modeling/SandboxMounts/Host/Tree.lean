import SandboxMounts.Path.Location

/-!
A file tree as a map from locations to nodes. The root is always a directory. A new node replaces the
one at its location; a removal takes everything below with it.
-/

set_option autoImplicit false

namespace SandboxMounts

inductive LeafKind where
  | regular
  | block
  | char
  | fifo
  | socket
  deriving DecidableEq, Repr

inductive Node where
  | dir (mode : Nat)
  | link (target : Path)
  | leaf (kind : LeafKind) (mode : Nat) (content : Bytes)
  deriving DecidableEq, Repr

namespace Node

def isDir : Node → Bool
  | .dir _ => true
  | _ => false

def isRegular : Node → Bool
  | .leaf .regular _ _ => true
  | _ => false

end Node

structure Tree where
  entries : List (Location × Node)
  deriving Repr

namespace Tree

def empty : Tree := ⟨[]⟩

def get? (t : Tree) : Location → Option Node
  | [] => some (.dir 0o755)
  | l@(_ :: _) => t.entries.lookup l

def insert (t : Tree) (l : Location) (n : Node) : Tree :=
  ⟨(l, n) :: t.entries.filter (·.1 ≠ l)⟩

def remove (t : Tree) (l : Location) : Tree := ⟨t.entries.filter fun e => !l.isSuffixOf e.1⟩

def replace (t : Tree) (l : Location) (n : Node) : Tree :=
  match l with
  | [] => t
  | _ :: _ => (t.remove l).insert l n

def sorted (t : Tree) : List (Location × Node) :=
  t.entries.mergeSort fun a b => a.1.path.le b.1.path

def insertDirs (t : Tree) : Location → Tree
  | [] => t
  | n :: above =>
    let t' := t.insertDirs above
    match t'.get? (n :: above) with
    | some (.dir _) => t'
    | _ => t'.insert (n :: above) (.dir 0o755)

theorem get?_insert_self (t : Tree) (m : Name) (l : Location) (n : Node) :
    (t.insert (m :: l) n).get? (m :: l) = some n := by
  simp [insert, get?]

theorem lookup_filter_ne {α : Type} (es : List (Location × α)) {k l : Location} (h : k ≠ l) :
    (es.filter (·.1 ≠ l)).lookup k = es.lookup k := by
  induction es with
  | nil => rfl
  | cons e es ih =>
    obtain ⟨m, x⟩ := e
    by_cases hm : m = l
    · subst hm
      have hk : (k == m) = false := by simp [h]
      simpa [List.lookup_cons, hk] using ih
    · by_cases hk : k = m
      · subst hk
        simp [hm]
      · have hk' : (k == m) = false := by simp [hk]
        simpa [List.lookup_cons, hm, hk'] using ih

theorem get?_insert_of_ne (t : Tree) {k l : Location} (n : Node) (h : k ≠ l) :
    (t.insert l n).get? k = t.get? k := by
  cases k with
  | nil => rfl
  | cons m r =>
    have hk : ((m :: r) == l) = false := by simp [h]
    simp only [get?, insert, List.lookup_cons, hk]
    exact lookup_filter_ne t.entries h

end Tree

end SandboxMounts
