import SandboxMounts.Proofs.Components
import SandboxMounts.Proofs.Shape

/-!
What a bind does to the tree, however it ends. Nothing that is there is touched, and whatever is made can
be named by the destination or by the beginning of its spelling.
-/

set_option autoImplicit false

namespace SandboxMounts

/-- What a bind may make, and by which path it is named: directories on the way to the destination and
there, or there a file if the source is none. -/
inductive Bind.MayMake (destination : Path) (sourceIsDir : Bool) (mode : Nat) : Path → Node → Prop
  | dir {p : Path} (hp : p.components <+: destination.components) :
    MayMake destination sourceIsDir mode p (.dir mode)
  | file (hs : sourceIsDir = false) :
    MayMake destination sourceIsDir mode destination (.leaf .regular mode [])

namespace Host

theorem testBit_modeOf (h : Host) (i : Nat) :
    h.modeOf.testBit i = (Nat.testBit 0o755 i && !h.umask.testBit i) := by
  unfold modeOf creationMode
  rw [Nat.testBit_xor, Nat.testBit_and]
  cases Nat.testBit 0o755 i <;> cases h.umask.testBit i <;> rfl

/-- From `h` to `h'` nodes have only been added, each under a path with which `P` allows it. -/
structure Builds (P : Nat → Path → Node → Prop) (h h' : Host) : Prop where
  grows : h.Grows h'
  umask : h'.umask = h.umask
  named : ∀ l node, h'.tree.get? l = some node → h.tree.get? l = none →
    ∃ p, P h.modeOf p node ∧ h'.locate .followed p = .ok (.node l)

section

variable {P : Nat → Path → Node → Prop} {h h' : Host} {p : Path}

theorem Builds.of_tree (hg : h.Grows h') (hu : h'.umask = h.umask) (ht : h'.tree = h.tree) :
    h.Builds P h' where
  grows := hg
  umask := hu
  named := by
    intro l node hnew hold
    rw [ht, hold] at hnew
    cases hnew

instance : IsPreorder Host (Builds P) where
  refl h := .of_tree (refl_of Grows h) rfl rfl
  trans := by
    intro h₁ h₂ h₃ h₁₂ h₂₃
    have hmode : h₂.modeOf = h₁.modeOf := by rw [modeOf, modeOf, h₁₂.umask]
    refine ⟨trans_of Grows h₁₂.grows h₂₃.grows, h₂₃.umask.trans h₁₂.umask, fun l node hnew hold => ?_⟩
    cases hl : h₂.tree.get? l with
    | none =>
      rw [← hmode]
      exact h₂₃.named l node hnew hl
    | some node' =>
      have hsame := h₂₃.grows.tree l node' hl
      obtain rfl : node = node' := Option.some.inj (hnew.symm.trans hsame)
      obtain ⟨p, hP, hp⟩ := h₁₂.named l node hl hold
      exact ⟨p, hP, h₂₃.grows.locate_node hp⟩

theorem builds_add {how : LastName} {dir : Location} {m : Name} {node : Node} (hf : how.IsFor node)
    (hP : P h.modeOf p node) (hl : h.locate how p = .ok (.vacant dir m)) :
    h.Builds P (h.add (m :: dir) node) where
  grows := grows_add node hl
  umask := rfl
  named := by
    intro k new hnew hold
    have hg : (h.add (m :: dir) node).tree.get? (m :: dir) = some node := Tree.get?_insert_self _ _ _ _
    obtain rfl : k = m :: dir := by
      by_contra hne
      have hkept := Tree.get?_insert_of_ne h.tree node hne
      rw [hold] at hkept
      cases hkept.symm.trans hnew
    obtain rfl : new = node := Option.some.inj (hnew.symm.trans hg)
    exact ⟨p, hP, (grows_add new hl).locate_followed hg hf hl rfl⟩

theorem Builds.keeps_meetFault (k : CallKind) (p : Path) : Effect.Keeps (Builds P) (meetFault k p) := by
  intro h
  have hg := Host.keeps_meetFault k p h
  rcases meetFault_cases k p h with hf | ⟨e, faults, hf⟩
  · rw [hf]
    exact refl_of (Builds P) h
  · rw [hf] at hg ⊢
    exact .of_tree hg rfl rfl

theorem Builds.keeps_mkdir (hP : ∀ mode, P mode p (.dir mode)) : Effect.Keeps (Builds P) (mkdir p) :=
  .mkdir Builds.keeps_meetFault fun hl => builds_add (.inl rfl) (hP _) hl

theorem Builds.keeps_create (hP : ∀ mode, P mode p (.leaf .regular mode [])) :
    Effect.Keeps (Builds P) (create p) :=
  .create Builds.keeps_meetFault fun hl => builds_add (.inr ⟨rfl, _, _, _, rfl⟩) (hP _) hl

/-- Preparing a destination builds no more than it may, also where it fails halfway. -/
theorem builds_of_prepare {source destination : Path} {r : Except IoError Unit}
    (hprep : Bind.prepare source destination h = (r, h')) :
    h.Builds (Bind.MayMake destination (h.leadsToDir source)) h' := by
  obtain ⟨looked, h₁, hmeta⟩ : ∃ r h₁, metadata source h = (r, h₁) := ⟨_, _, rfl⟩
  have hsame := Effect.Keeps.metadata
    (Builds.keeps_meetFault (P := Bind.MayMake destination (h.leadsToDir source))) source h
  rw [hmeta] at hsame
  unfold Bind.prepare at hprep
  cases looked with
  | error e =>
    rw [Effect.bind_of_error hmeta] at hprep
    cases hprep
    exact hsame
  | ok node =>
    obtain ⟨⟨st, hs, rfl⟩, rfl⟩ := metadata_ok hmeta
    rw [Effect.bind_of_ok hmeta] at hprep
    rw [leadsToDir_of_statOf hs]
    have hdirs : ∀ p ∈ destination :: destination.parents,
        Effect.Keeps (Builds (Bind.MayMake destination st.node.isDir)) (mkdir p) := by
      refine List.forall_mem_cons.2 ⟨Builds.keeps_mkdir fun mode => .dir List.prefix_rfl, fun p hp => ?_⟩
      exact Builds.keeps_mkdir fun mode => .dir (Path.components_of_mem_parents hp)
    obtain ⟨hlast, hparents⟩ := List.forall_mem_cons.1 hdirs
    obtain rfl : _ = h' := congrArg Prod.snd hprep
    refine Effect.Keeps.bind (.mkdirs hparents) (fun _ => ?_) h₁
    cases hd : st.node.isDir with
    | true =>
      rw [hd] at hlast
      refine .bind (.outcome hlast) fun r => ?_
      split
      · exact .pure ()
      · exact .pure ()
      · exact .throw _
    | false => exact Builds.keeps_create fun mode => .file rfl

end

end Host

/-- However a bind ends, every node is there after it as before. A node that was not there before is what
the destination or the beginning of its spelling leads to, links followed; it is a directory, or at the
destination itself a file if the source is none, of mode 755 without the bits of the umask. A bind that is
turned down for its arguments or its source leaves the host as it was. -/
theorem Operation.run_frame {o : Operation} {source destination : Path} {readOnly : Bool}
    (hs : o.source? = some source) (ha : o.asked? = some (destination, readOnly)) (h : Host) :
    ∃ r h', o.run h = (r, h') ∧ h.tree.Extends h'.tree ∧
      (∀ l node, h'.tree.get? l = some node → h.tree.get? l = none →
        ∃ root p, Host.resolve source h = (.ok root, h) ∧
          Bind.MayMake destination (h.leadsToDir root.path) h.modeOf p node ∧
          h'.locate .followed p = .ok (.node l)) ∧
      (∀ i, h.modeOf.testBit i = (Nat.testBit 0o755 i && !h.umask.testBit i)) ∧
      (∀ argument, r = .error (.emptyArgument argument) → h' = h) ∧
      (∀ path cause, r = .error (.sourceResolution path cause) → h' = h) := by
  have hout := Operation.run_outset hs ha h
  generalize o.run h = run at hout ⊢
  have hidle : ∀ l node, h.tree.get? l = some node → h.tree.get? l ≠ none := by simp +contextual
  cases hout with
  | refused argument =>
    refine ⟨_, h, rfl, refl_of _ h.tree, ?_, h.testBit_modeOf, fun _ _ => rfl, fun _ _ _ => rfl⟩
    exact fun l node hnew hold => absurd hold (hidle l node hnew)
  | unresolved hl =>
    refine ⟨_, h, rfl, refl_of _ h.tree, ?_, h.testBit_modeOf, fun _ _ => rfl, fun _ _ _ => rfl⟩
    exact fun l node hnew hold => absurd hold (hidle l node hnew)
  | @unprepared root cause h₁ hl hp =>
    have hbuilds := Host.builds_of_prepare hp
    refine ⟨_, h₁, rfl, hbuilds.grows.tree, fun l node hnew hold => ?_, h.testBit_modeOf, ?_, ?_⟩
    · obtain ⟨p, hmade, hnamed⟩ := hbuilds.named l node hnew hold
      exact ⟨root, p, hl, hmade, hnamed⟩
    · exact fun _ hr => by cases hr
    · exact fun _ _ hr => by cases hr
  | @prepared root h₁ hl hp =>
    have hbuilds := Host.builds_of_prepare hp
    have hfiles := Host.SameFiles.keeps_attach root.path destination readOnly h₁
    obtain ⟨r, h', calls, hattach, -, hend⟩ :=
      Bind.attach_ending root.path readOnly h₁ (Bind.hasNul_eq_false_of_prepare hp)
    rw [hattach] at hfiles ⊢
    refine ⟨r, h', rfl, ?_, fun l node hnew hold => ?_, h.testBit_modeOf, ?_, ?_⟩
    · rw [hfiles.tree]
      exact hbuilds.grows.tree
    · rw [hfiles.tree] at hnew
      obtain ⟨p, hmade, hnamed⟩ := hbuilds.named l node hnew hold
      exact ⟨root, p, hl, hmade, (hfiles.locate .followed p).trans hnamed⟩
    · intro argument hr
      subst hr
      obtain ⟨_, _, _, _, _, he, -⟩ := hend.of_error
      cases he
    · intro path cause hr
      subst hr
      obtain ⟨_, _, _, _, _, he, -⟩ := hend.of_error
      cases he

def Host.masked : Host :=
  { (Host.bindable.place [[0x74]] (.dir 0o755) none none).place [[0x73]] (.link ⟨[slash, 0x74]⟩) none none
    with umask := 0o77 }

theorem Operation.run_frame_masked :
    ∃ h', (Operation.share ⟨[slash, 0x73]⟩ "b" "c" ⟨[slash, 0x72]⟩ true).run Host.masked =
        (.ok (), h') ∧
      Host.masked.tree.Extends h'.tree ∧
      (h'.tree.get? [[0x63], [0x62], [0x74]]).isSome = true ∧
      ∀ l node, h'.tree.get? l = some node → Host.masked.tree.get? l = none → node = .dir 0o700 := by
  let o : Operation := .share ⟨[slash, 0x73]⟩ "b" "c" ⟨[slash, 0x72]⟩ true
  have hok : (o.run Host.masked).1.isOk = true ∧
      ((o.run Host.masked).2.tree.get? [[0x63], [0x62], [0x74]]).isSome = true ∧
      (Host.resolve ⟨[slash, 0x72]⟩ Host.masked).1.toOption = some [[0x72]] ∧
      Host.masked.leadsToDir (Location.path [[0x72]]) = true := by decide +kernel
  obtain ⟨hok, hmade, hroot, hdir⟩ := hok
  obtain ⟨r, h', hrun, hext, hnew, -⟩ := Operation.run_frame (o := o) rfl rfl Host.masked
  rw [hrun] at hok hmade
  cases r with
  | error e => cases hok
  | ok u =>
    refine ⟨h', hrun, hext, hmade, fun l node hl hold => ?_⟩
    obtain ⟨root, p, hres, hmay, -⟩ := hnew l node hl hold
    rw [hres] at hroot
    obtain rfl : root = [[0x72]] := Option.some.inj hroot
    cases hmay with
    | dir hp => rfl
    | file hs =>
      rw [hdir] at hs
      cases hs

end SandboxMounts
