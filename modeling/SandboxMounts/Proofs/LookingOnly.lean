import SandboxMounts.Command.Run
import SandboxMounts.Proofs.Growth

/-!
What only looks at the host spends faults and does nothing else to it: the search for a device, the look
into the mount table, and the reading of a configuration. A configuration that has been read is read
again as it was when the tree has grown.
-/

set_option autoImplicit false

namespace SandboxMounts

namespace Host

def SpendsFaults (h h' : Host) : Prop := ∃ faults, h' = { h with faults }

instance : IsPreorder Host SpendsFaults where
  refl h := ⟨h.faults, rfl⟩
  trans := by
    intro h₁ h₂ h₃ h₁₂ h₂₃
    obtain ⟨_, rfl⟩ := h₁₂
    obtain ⟨faults, rfl⟩ := h₂₃
    exact ⟨faults, rfl⟩

namespace SpendsFaults

theorem calls {h h' : Host} (hs : h.SpendsFaults h') : h'.calls = h.calls := by
  obtain ⟨_, rfl⟩ := hs
  rfl

theorem keeps_meetFault (k : CallKind) (p : Path) : Effect.Keeps SpendsFaults (meetFault k p) :=
  .meetFault (fun _ faults => ⟨faults, rfl⟩) k p

theorem keeps_stat (p : Path) : Effect.Keeps SpendsFaults (stat p) :=
  .bind (.refuseNul p _) fun _ => .bind (keeps_meetFault .stat p) fun _ => .look _

theorem keeps_lstat (p : Path) : Effect.Keeps SpendsFaults (lstat p) :=
  .bind (.refuseNul p _) fun _ => .bind (keeps_meetFault .lstat p) fun _ => .look _

theorem keeps_read (p : Path) : Effect.Keeps SpendsFaults (read p) := by
  refine .bind (.refuseNul p _) fun _ => .bind (keeps_meetFault .openFile p) fun _ =>
    .bind (.look _) fun st => ?_
  split
  · exact .pure _
  · exact .throw _
  · exact .throw _

theorem of_namesDevice (p : Path) (h : Host) : h.SpendsFaults (namesDevice p h).2 := by
  unfold namesDevice
  split
  · exact refl_of SpendsFaults h
  split
  · have hs := keeps_stat p h
    split <;> rename_i hr <;> rw [hr] at hs <;> exact hs
  · exact refl_of SpendsFaults h

theorem keeps_climb (path : Path) (device : RawDevice) (l : Location) :
    Effect.Keeps SpendsFaults (climb path device l) := by
  induction l with
  | nil => exact .throw _
  | cons n above ih => exact .bind (.orFail (keeps_lstat _)) fun _ => .ite ih (.pure _)

theorem keeps_absolute (p : Path) : Effect.Keeps SpendsFaults (absolute p) :=
  .ite (.pure _) (.bind (.look _) fun _ => .pure _)

theorem keeps_device (p : Path) : Effect.Keeps SpendsFaults (Device.ofPath p) := by
  have hrest : ∀ st : Stat, Effect.Keeps SpendsFaults (do
      let l ← (absolute p).orFail (.stat p)
      if l = [] then return ⟨.decode st.device, some (Location.path [])⟩
      let point ← boundary st.device l
      return ⟨.decode st.device, some point.path⟩ : Action Device) := fun st =>
    .bind (.orFail (keeps_absolute p)) fun l =>
      .ite (.pure _) (.bind (keeps_climb l.path st.device l) fun _ => .pure _)
  refine .ite (.bind (.throw _) fun _ => ?_) ?_
  all_goals
    refine .bind (.orFail (keeps_stat p)) fun st => .bind (of_namesDevice p) fun isNode => ?_
    exact .ite (.pure _) (hrest st)

theorem keeps_probe (dir : Path) (d : DeviceNumber) :
    Effect.Keeps SpendsFaults (Mapper.probe dir d) := by
  refine .bind (.orFail (.outcome (keeps_stat _))) fun r => ?_
  split
  · exact .pure _
  · exact .pure _
  · exact .throw _

theorem keeps_blockDevice (dir p : Path) :
    Effect.Keeps SpendsFaults (BlockDevice.ofPath (Mapper.probe dir) p : Action BlockDevice) :=
  .bind (keeps_device p) fun _ => .bind (keeps_probe dir _) fun _ => .pure _

theorem keeps_lookup (table mountPoint : Path) :
    Effect.Keeps SpendsFaults (MountTable.lookup table mountPoint) := by
  refine .ite (.bind (.throw _) fun _ => ?_) ?_
  all_goals exact .bind (.orFail (keeps_read table)) fun _ => .ofExcept _

theorem keeps_inEffect (file sharedDir : Option Path) :
    Effect.Keeps SpendsFaults (Config.inEffect file sharedDir) := by
  have hfile : ∀ p, Effect.Keeps SpendsFaults (Config.ofFile p) := fun p =>
    .bind (.orFail (keeps_read p)) fun _ => .bind (.ofExcept _) fun _ => .bind (.ofExcept _) fun _ => .pure _
  unfold Config.inEffect
  split
  · exact .bind (hfile _) fun _ => .bind (.ofExcept _) fun _ => .pure _
  · exact .bind (.pure _) fun _ => .bind (.ofExcept _) fun _ => .pure _

theorem of_runDevice (c : Config) (p : Path) (withMountInfo : Bool) (h : Host) :
    h.SpendsFaults (Run.device c p withMountInfo h).2 := by
  have hb := keeps_blockDevice c.sysfsBlockDir p h
  unfold Run.device
  split <;> rename_i hr <;> rw [hr] at hb
  · exact hb
  · rename_i b h₁
    split
    · have hl := keeps_lookup c.mountTable ‹Path› h₁
      split <;> rename_i hr' <;> rw [hr'] at hl <;> exact trans_of SpendsFaults hb hl
    · exact hb

end SpendsFaults

section

variable {h h' h₂ : Host} {k : CallKind} {p : Path}

theorem useFault?_none {fs : List Fault} (hu : useFault? k p fs = none) :
    ∀ f ∈ fs, f.applies k p = false := by
  induction fs with
  | nil => exact fun f hf => by cases hf
  | cons f fs ih =>
    rw [useFault?] at hu
    split at hu
    · cases hu
    · refine List.forall_mem_cons.2 ⟨Bool.eq_false_iff.2 ‹_›, ih ?_⟩
      exact Option.map_eq_none_iff.1 hu

theorem Grows.meetFault_ok {u : Unit} (hg : h.Grows h₂) (hm : meetFault k p h = (.ok u, h')) :
    meetFault k p h₂ = (.ok (), h₂) := by
  unfold meetFault at hm
  split at hm
  · cases hm
  rename_i hu
  have hspared : ∀ f ∈ h₂.faults, f.applies k p = false := fun f hf => by
    obtain ⟨f₀, hf₀, hl⟩ := hg.faults f hf
    rw [Bool.eq_false_iff]
    exact fun ha => by simpa [hl.applies k p ha] using useFault?_none hu f₀ hf₀
  rw [meetFault, useFault?_eq_none hspared]

theorem read_ok {content : Bytes} (hr : read p h = (.ok content, h')) :
    h' = h ∧ ∀ h₂, h.Grows h₂ → read p h₂ = (.ok content, h₂) := by
  obtain ⟨_, h₁, hn, hrest⟩ := Effect.bind_eq_ok.1 hr
  obtain ⟨_, h₃, hf, hrest⟩ := Effect.bind_eq_ok.1 hrest
  obtain ⟨st, h₄, hl, hleaf⟩ := Effect.bind_eq_ok.1 hrest
  obtain ⟨hclean, rfl⟩ := refuseNul_ok hn
  obtain rfl := meetFault_ok hf
  obtain ⟨hs, rfl⟩ := look_ok hl
  obtain ⟨kind, mode, hnode, rfl⟩ : ∃ kind mode, st.node = .leaf kind mode content ∧ h' = h₄ := by
    cases hnode : st.node with
    | dir mode =>
      simp only [hnode] at hleaf
      cases hleaf
    | link target =>
      simp only [hnode] at hleaf
      cases hleaf
    | leaf kind mode content' =>
      simp only [hnode] at hleaf
      cases hleaf
      exact ⟨kind, mode, rfl, rfl⟩
  refine ⟨rfl, fun h₂ hg => ?_⟩
  obtain ⟨place, hplace, hat⟩ := except_bind_eq_ok.1 hs
  cases place with
  | vacant dir n => cases hat
  | adrift l =>
    cases hat
    cases hnode
  | node l =>
    simp only at hat
    split at hat <;> cases hat
    rename_i hget
    simp only at hnode
    subst hnode
    have hs₂ := statOf_node (hg.locate_node hplace) (hg.tree l _ hget)
    have hlook : look (·.statOf .followed p) h₂ =
        (.ok ⟨.leaf kind mode content, h₂.deviceAt l, h₂.specialAt l⟩, h₂) := by
      rw [look, hs₂]
    unfold read
    rw [Effect.bind_of_ok (refuseNul_of_clean hclean), Effect.bind_of_ok (hg.meetFault_ok hf),
      Effect.bind_of_ok hlook]
    rfl

end

end Host

namespace Config

theorem isAbsolute_of_check {c : Config} (hc : c.check = .ok ()) : c.sharedDir.isAbsolute = true := by
  unfold check at hc
  split at hc
  · rename_i hfirst
    have hall := List.find?_eq_none.1 hfirst ("shared_dir", c.sharedDir) List.mem_cons_self
    simpa using hall
  · cases hc

section

variable {file sharedDir : Option Path} {h h' h₂ : Host} {c : Config}

theorem ofFile_ok {p : Path} (hc : ofFile p h = (.ok c, h')) :
    h' = h ∧ ∀ h₂, h.Grows h₂ → ofFile p h₂ = (.ok c, h₂) := by
  obtain ⟨content, h₁, hr, hc₁⟩ := Effect.bind_eq_ok.1 hc
  obtain ⟨c', h₃, hb, hc₃⟩ := Effect.bind_eq_ok.1 hc₁
  obtain ⟨_, h₄, hk, hc₄⟩ := Effect.bind_eq_ok.1 hc₃
  obtain ⟨rfl, hagain⟩ := Host.read_ok (Effect.orFail_eq_ok.1 hr)
  obtain ⟨hbytes, rfl⟩ := Effect.ofExcept_eq_ok.1 hb
  obtain ⟨hcheck, rfl⟩ := Effect.ofExcept_eq_ok.1 hk
  cases hc₄
  refine ⟨rfl, fun h₂ hg => ?_⟩
  refine Effect.bind_eq_ok.2 ⟨content, h₂, Effect.orFail_of_ok (hagain h₂ hg), ?_⟩
  refine Effect.bind_eq_ok.2 ⟨c, h₂, Effect.ofExcept_eq_ok.2 ⟨hbytes, rfl⟩, ?_⟩
  exact Effect.bind_eq_ok.2 ⟨(), h₂, Effect.ofExcept_eq_ok.2 ⟨hcheck, rfl⟩, rfl⟩

/-- A configuration in effect has an absolute shared directory, and it stays in effect while the tree
does no more than grow. -/
theorem inEffect_ok (hc : inEffect file sharedDir h = (.ok c, h')) :
    h' = h ∧ c.sharedDir.isAbsolute = true ∧
      ∀ h₂, h.Grows h₂ → inEffect file sharedDir h₂ = (.ok c, h₂) := by
  have hbase : ∃ base : Action Config, ∃ c₀, inEffect file sharedDir = (do
        let c ← base
        let c := { c with sharedDir := sharedDir.getD c.sharedDir }
        MonadExcept.ofExcept c.check
        return c) ∧ base h = (.ok c₀, h) ∧ ∀ h₂, h.Grows h₂ → base h₂ = (.ok c₀, h₂) := by
    cases file with
    | none => exact ⟨pure default, default, rfl, rfl, fun _ _ => rfl⟩
    | some p =>
      obtain ⟨c₀, h₁, hf, -⟩ := Effect.bind_eq_ok.1 hc
      obtain ⟨rfl, hagain⟩ := ofFile_ok hf
      exact ⟨ofFile p, c₀, rfl, hf, hagain⟩
  obtain ⟨base, c₀, heq, hb, hagain⟩ := hbase
  rw [heq] at hc ⊢
  rw [Effect.bind_of_ok hb] at hc
  obtain ⟨_, h₁, hk, hrest⟩ := Effect.bind_eq_ok.1 hc
  obtain ⟨hcheck, rfl⟩ := Effect.ofExcept_eq_ok.1 hk
  cases hrest
  refine ⟨rfl, isAbsolute_of_check hcheck, fun h₂ hg => ?_⟩
  rw [Effect.bind_of_ok (hagain h₂ hg)]
  exact Effect.bind_eq_ok.2 ⟨(), h₂, Effect.ofExcept_eq_ok.2 ⟨hcheck, rfl⟩, rfl⟩

end

end Config

end SandboxMounts
