import SandboxMounts.Device.Boundary
import SandboxMounts.Proofs.CallRecord
import SandboxMounts.Proofs.Spelling

/-!
Looks at the host. One that succeeds leaves the host as it was, faults included, so that several looks
in a row all see the same host.
-/

set_option autoImplicit false

namespace SandboxMounts.Host

theorem refuseNul_ok {p : Path} {e : IoError} {h h' : Host} {u : Unit}
    (hr : refuseNul p e h = (.ok u, h')) : p.hasNul = false ∧ h' = h := by
  rw [refuseNul_apply] at hr
  cases hn : p.hasNul with
  | false =>
    rw [hn] at hr
    cases hr
    exact ⟨rfl, rfl⟩
  | true =>
    rw [hn] at hr
    cases hr

theorem meetFault_ok {k : CallKind} {p : Path} {h h' : Host} {u : Unit}
    (hm : meetFault k p h = (.ok u, h')) : h' = h := by
  rcases meetFault_cases k p h with hf | ⟨e, faults, hf⟩ <;> rw [hf] at hm <;> cases hm
  rfl

theorem look_ok {α : Type} {f : Host → Except Errno α} {h h' : Host} {a : α}
    (hl : look f h = (.ok a, h')) : f h = .ok a ∧ h' = h := by
  unfold look at hl
  split at hl <;> cases hl
  exact ⟨‹_›, rfl⟩

theorem stat_ok {p : Path} {h h' : Host} {st : Stat} (hs : stat p h = (.ok st, h')) :
    h.statOf .followed p = .ok st ∧ h' = h := by
  obtain ⟨_, h₁, hn, hrest⟩ := Effect.bind_eq_ok.1 hs
  obtain ⟨_, h₂, hf, hl⟩ := Effect.bind_eq_ok.1 hrest
  obtain ⟨-, rfl⟩ := refuseNul_ok hn
  obtain rfl := meetFault_ok hf
  exact look_ok hl

theorem lstat_ok {p : Path} {h h' : Host} {st : Stat} (hs : lstat p h = (.ok st, h')) :
    h.statOf (if p.endsInSlash then .followed else .kept) p = .ok st ∧ h' = h := by
  obtain ⟨_, h₁, hn, hrest⟩ := Effect.bind_eq_ok.1 hs
  obtain ⟨_, h₂, hf, hl⟩ := Effect.bind_eq_ok.1 hrest
  obtain ⟨-, rfl⟩ := refuseNul_ok hn
  obtain rfl := meetFault_ok hf
  exact look_ok hl

theorem metadata_ok {p : Path} {h h' : Host} {node : Node} (hm : metadata p h = (.ok node, h')) :
    (∃ st, h.statOf .followed p = .ok st ∧ st.node = node) ∧ h' = h := by
  obtain ⟨_, h₁, hn, hrest⟩ := Effect.bind_eq_ok.1 hm
  obtain ⟨_, h₂, hf, hrest⟩ := Effect.bind_eq_ok.1 hrest
  obtain ⟨st, h₃, hl, hnode⟩ := Effect.bind_eq_ok.1 hrest
  obtain ⟨-, rfl⟩ := refuseNul_ok hn
  obtain rfl := meetFault_ok hf
  obtain ⟨hs, rfl⟩ := look_ok hl
  cases hnode
  exact ⟨⟨st, hs, rfl⟩, rfl⟩

/-- The hosts differ at most in what no lookup sees. -/
def SameFiles (h h' : Host) : Prop := ∃ faults mounts calls, h' = { h with faults, mounts, calls }

instance : IsPreorder Host SameFiles where
  refl h := ⟨h.faults, h.mounts, h.calls, rfl⟩
  trans := by
    intro h₁ h₂ h₃ h₁₂ h₂₃
    obtain ⟨_, _, _, rfl⟩ := h₁₂
    obtain ⟨faults, mounts, calls, rfl⟩ := h₂₃
    exact ⟨faults, mounts, calls, rfl⟩

namespace SameFiles

variable {h h' : Host} (hs : h.SameFiles h')
include hs

theorem tree : h'.tree = h.tree := by
  obtain ⟨_, _, _, rfl⟩ := hs
  rfl

theorem locate (how : LastName) (p : Path) : h'.locate how p = h.locate how p := by
  obtain ⟨_, _, _, rfl⟩ := hs
  rfl

theorem deviceAt (l : Location) : h'.deviceAt l = h.deviceAt l := by
  obtain ⟨_, _, _, rfl⟩ := hs
  induction l with
  | nil => rfl
  | cons n above ih =>
    rw [Host.deviceAt, Host.deviceAt, ih]

theorem statOf (how : LastName) (p : Path) : h'.statOf how p = h.statOf how p := by
  unfold Host.statOf
  simp only [hs.locate, hs.deviceAt]
  obtain ⟨_, _, _, rfl⟩ := hs
  rfl

theorem leadsToDir (p : Path) : h'.leadsToDir p = h.leadsToDir p := by
  rw [Host.leadsToDir, Host.leadsToDir, hs.statOf]

end SameFiles

end SandboxMounts.Host

namespace SandboxMounts

theorem namesDevice_of_stat {p : Path} {h : Host} {st : Host.Stat} (hs : Host.stat p h = (.ok st, h)) :
    (namesDevice p h).2 = h := by
  unfold namesDevice
  split
  · rfl
  · split
    · rw [hs]
    · rfl

theorem absolute_ok {p : Path} {h h' : Host} {l : Location} (ha : absolute p h = (.ok l, h')) :
    l = p.normalize h.cwd ∧ (p.isAbsolute = false → h.cwdGone = false) ∧ h' = h := by
  unfold absolute at ha
  cases hp : p.isAbsolute with
  | true =>
    rw [hp] at ha
    cases ha
    refine ⟨?_, (fun hc => by cases hc), rfl⟩
    rw [Path.normalize_eq, Path.normalize_eq, Path.start, Path.start, if_pos hp, if_pos hp]
  | false =>
    rw [hp] at ha
    obtain ⟨cwd, h₁, hc, hl⟩ := Effect.bind_eq_ok.1 ha
    obtain ⟨hw, rfl⟩ := Host.look_ok hc
    cases hl
    unfold Host.workingDirectory at hw
    split at hw <;> cases hw
    exact ⟨rfl, fun _ => Bool.eq_false_iff.2 ‹_›, rfl⟩

end SandboxMounts
