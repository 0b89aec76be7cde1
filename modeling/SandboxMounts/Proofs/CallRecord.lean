import SandboxMounts.Host.Mounting
import SandboxMounts.Proofs.Effects

/-!
The record of mount calls and the mounts belong together: what happened to the mounts can be read off
the calls on record. Everything else that an effect does leaves both alone.
-/

set_option autoImplicit false

namespace SandboxMounts

def MountCall.after? (c : MountCall) (ms : List Mount) : Option (List Mount) :=
  match c.errno with
  | some _ => some ms
  | none => Host.mountsAfter? c.request c.target ms

def MountCall.result (c : MountCall) : Except IoError Unit :=
  match c.errno with
  | some e => .error (.os e)
  | none => .ok ()

def replay? (cs : List MountCall) (ms : List Mount) : Option (List Mount) :=
  cs.foldlM (fun ms c => c.after? ms) ms

@[simp] theorem replay?_nil (ms : List Mount) : replay? [] ms = some ms := rfl

@[simp] theorem replay?_cons (c : MountCall) (cs : List MountCall) (ms : List Mount) :
    replay? (c :: cs) ms = (c.after? ms).bind (replay? cs) := rfl

theorem replay?_append (cs ds : List MountCall) (ms : List Mount) :
    replay? (cs ++ ds) ms = (replay? cs ms).bind (replay? ds) := by
  induction cs generalizing ms with
  | nil => rfl
  | cons c cs ih =>
    cases hc : c.after? ms with
    | none => simp [hc]
    | some ms' => simp [hc, ih]

/-- From `h` to `h'` all that changed the mounts is on record, and only calls of the kind `P` are. -/
def Accounts (P : MountCall → Prop) (h h' : Host) : Prop :=
  ∃ cs, h'.calls = h.calls ++ cs ∧ (∀ c ∈ cs, P c) ∧ replay? cs h.mounts = some h'.mounts

def SameMounts (h h' : Host) : Prop := h'.mounts = h.mounts ∧ h'.calls = h.calls

instance : IsPreorder Host SameMounts where
  refl _ := ⟨rfl, rfl⟩
  trans _ _ _ h₁ h₂ := ⟨h₂.1.trans h₁.1, h₂.2.trans h₁.2⟩

theorem SameMounts.accounts {P : MountCall → Prop} {h h' : Host} (hs : SameMounts h h') :
    Accounts P h h' :=
  ⟨[], by simp [hs.2], by simp, by simp [hs.1]⟩

instance (P : MountCall → Prop) : IsPreorder Host (Accounts P) where
  refl h := SameMounts.accounts (refl_of SameMounts h)
  trans := by
    intro h₁ h₂ h₃ h₁₂ h₂₃
    obtain ⟨cs, hcs, hP, hr⟩ := h₁₂
    obtain ⟨ds, hds, hQ, hr'⟩ := h₂₃
    refine ⟨cs ++ ds, by rw [hds, hcs, List.append_assoc], ?_, by simp [replay?_append, hr, hr']⟩
    intro c hc
    rcases List.mem_append.1 hc with hc | hc
    · exact hP c hc
    · exact hQ c hc

namespace Host

theorem refuseNul_apply (p : Path) (e : IoError) (h : Host) :
    refuseNul p e h = (if p.hasNul then .error e else .ok (), h) := by
  unfold refuseNul
  split <;> rfl

theorem refuseNul_of_clean {p : Path} (hn : p.hasNul = false) {e : IoError} {h : Host} :
    refuseNul p e h = (.ok (), h) := by
  rw [refuseNul_apply, hn]
  rfl

theorem refuseNul_of_hasNul {p : Path} (hn : p.hasNul = true) {e : IoError} {h : Host} :
    refuseNul p e h = (.error e, h) := by
  rw [refuseNul_apply, hn]
  rfl

theorem meetFault_cases (k : CallKind) (p : Path) (h : Host) :
    meetFault k p h = (.ok (), h) ∨
      ∃ e faults, meetFault k p h = (.error (.os e), { h with faults }) := by
  unfold meetFault
  split
  · exact .inr ⟨_, _, rfl⟩
  · exact .inl rfl

theorem change_cases (f : Host → Except Errno Host) (h : Host) :
    (∃ h', f h = .ok h' ∧ change f h = (.ok (), h')) ∨
      ∃ e, f h = .error e ∧ change f h = (.error (.os e), h) := by
  unfold change
  cases hf : f h with
  | ok h' => exact .inl ⟨h', rfl, rfl⟩
  | error e => exact .inr ⟨e, rfl, rfl⟩

theorem performIn_ok {request : MountRequest} {target : Path} {h h' : Host}
    (hp : performIn request target h = .ok h') :
    ∃ ms, mountsAfter? request target h.mounts = some ms ∧ h' = { h with mounts := ms } := by
  cases hms : mountsAfter? request target h.mounts with
  | none =>
    by_cases hd : request = .detach
    · subst hd
      simp only [performIn, if_true] at hp
      obtain ⟨_, -, hp⟩ := except_bind_eq_ok.1 hp
      simp only [hms] at hp
      cases hp
    · simp only [performIn, hd, if_false, hms] at hp
      cases hp
  | some ms =>
    refine ⟨ms, rfl, ?_⟩
    by_cases hd : request = .detach
    · subst hd
      simp only [performIn, if_true] at hp
      obtain ⟨_, -, hp⟩ := except_bind_eq_ok.1 hp
      simp only [hms] at hp
      exact (Except.ok.inj hp).symm
    · simp only [performIn, hd, if_false, hms] at hp
      exact (Except.ok.inj hp).symm

/-- A mount call goes on record either way, and changes the mounts only if it succeeds. -/
theorem issue_recorded (request : MountRequest) {target : Path} (h : Host)
    (hn : target.hasNul = false) :
    ∃ errno h', issue request target h = (MountCall.result ⟨request, target, errno⟩, h') ∧
      h'.calls = h.calls ++ [⟨request, target, errno⟩] ∧
      MountCall.after? ⟨request, target, errno⟩ h.mounts = some h'.mounts := by
  unfold issue
  rw [Effect.bind_of_ok (refuseNul_of_clean hn)]
  rcases meetFault_cases request.kind target h with hf | ⟨e, faults, hf⟩
  · rcases change_cases (performIn request target) h with ⟨h', hp, hc⟩ | ⟨e, -, hc⟩
    · obtain ⟨ms, hms, rfl⟩ := performIn_ok hp
      refine ⟨none, record { h with mounts := ms } ⟨request, target, none⟩, ?_, rfl, hms⟩
      rw [Effect.bind_of_ok hf, hc]
      rfl
    · refine ⟨some e, h.record ⟨request, target, some e⟩, ?_, rfl, rfl⟩
      rw [Effect.bind_of_ok hf, hc]
      rfl
  · refine ⟨some e, record { h with faults } ⟨request, target, some e⟩, ?_, rfl, rfl⟩
    rw [Effect.bind_of_error hf]
    rfl

theorem issue_of_hasNul (request : MountRequest) {target : Path} (h : Host)
    (hn : target.hasNul = true) :
    issue request target h = (.error (.os .invalidArgument), h) := by
  unfold issue
  rw [Effect.bind_of_error (refuseNul_of_hasNul hn)]

theorem editNewest?_cons_self {target : Path} {m : Mount} (f : Mount → List Mount) (ms : List Mount)
    (hm : m.target = target) : editNewest? target f (m :: ms) = some (f m ++ ms) := by
  simp [editNewest?, hm]

theorem makePrivate_newest (source target : Path) (isPrivate readOnly : Bool) (ms : List Mount) :
    mountsAfter? .makePrivate target (⟨source, target, isPrivate, readOnly⟩ :: ms) =
      some (⟨source, target, true, readOnly⟩ :: ms) :=
  editNewest?_cons_self _ ms rfl

theorem remountReadOnly_newest (source target : Path) (isPrivate readOnly : Bool) (ms : List Mount) :
    mountsAfter? (.remountReadOnly source) target (⟨source, target, isPrivate, readOnly⟩ :: ms) =
      some (⟨source, target, isPrivate, true⟩ :: ms) :=
  editNewest?_cons_self _ ms rfl

theorem detach_newest {target : Path} {m : Mount} (ms : List Mount) (hm : m.target = target) :
    mountsAfter? .detach target (m :: ms) = some ms :=
  editNewest?_cons_self _ ms hm

end Host

end SandboxMounts
