import SandboxMounts.Proofs.Isolation
import SandboxMounts.Proofs.LookingOnly

/-!
What the program may do to its host. Whatever its arguments, its environment and its configuration, it
makes mount calls for one share alone, and what it has bound it can detach again when it is asked to with
the same options.
-/

set_option autoImplicit false

namespace SandboxMounts

namespace Bind

theorem request_ne_detach (step : BindStep) (source : Path) : step.request source ≠ .detach := by
  cases step <;> exact fun hc => by cases hc

/-- All calls of a bind are at its target, and a detach among them follows a step that failed. -/
theorem Ending.calls {source t : Path} {readOnly : Bool} {ms ms' : List Mount}
    {r : Except Error Unit} {calls : List MountCall}
    (hend : Ending source t readOnly ms r calls ms') :
    ∀ call ∈ calls, call.target = t ∧ (call.request = .detach →
      ∃ step cause, step ≠ .bind ∧ r = .error (.mount step source t cause)) := by
  have hdone : ∀ ss : List BindStep, ∀ call ∈ ss.map (succeeded source t),
      call.target = t ∧ call.request ≠ .detach := by
    intro ss call hcall
    obtain ⟨s, -, rfl⟩ := List.mem_map.1 hcall
    exact ⟨rfl, request_ne_detach s source⟩
  have hundone : ∀ (ss : List BindStep) (step : BindStep) (e : Errno) (cleanup : Option Errno),
      ∀ call ∈ ss.map (succeeded source t) ++ [failed source t step e, ⟨.detach, t, cleanup⟩],
        call.target = t := by
    intro ss step e cleanup call hcall
    rcases List.mem_append.1 hcall with hb | hlast
    · exact (hdone ss call hb).1
    · simp only [List.mem_cons, List.not_mem_nil, or_false] at hlast
      rcases hlast with rfl | rfl <;> rfl
  intro call hcall
  cases hend with
  | complete =>
    obtain ⟨ht, hne⟩ := hdone _ call hcall
    exact ⟨ht, fun hd => absurd hd hne⟩
  | refused e =>
    obtain rfl := List.mem_singleton.1 hcall
    exact ⟨rfl, fun hd => absurd hd (request_ne_detach .bind source)⟩
  | undone before later step e hs =>
    exact ⟨hundone _ step e none call hcall, fun _ => ⟨step, _, ne_bind_of_steps hs, rfl⟩⟩
  | leftBehind before later step e e' hs =>
    exact ⟨hundone _ step e (some e') call hcall, fun _ => ⟨step, _, ne_bind_of_steps hs, rfl⟩⟩

end Bind

namespace Rootfs

variable {sharedDir : Path} {sandbox container : String}

theorem share_calls (sharedDir : Path) (sandbox container : String) (rootfs : Path) (readOnly : Bool)
    (h : Host) :
    ∃ r h' calls, share sharedDir sandbox container rootfs readOnly h = (r, h') ∧
      h'.calls = h.calls ++ calls ∧ h.Grows h' ∧
      (r = .ok () ∨ calls ≠ [] → IsOneName sandbox ∧ IsOneName container ∧
        (target sharedDir sandbox container).hasNul = false) ∧
      ∀ call ∈ calls, call.target = target sharedDir sandbox container ∧ (call.request = .detach →
        ∃ step source cause, step ≠ .bind ∧
          r = .error (.mount step source (target sharedDir sandbox container) cause)) := by
  cases hr : requireNames sandbox container with
  | error e =>
    rw [share_of_error sharedDir rootfs readOnly h hr]
    exact ⟨_, h, [], rfl, by simp, refl_of Host.Grows h, by simp, by simp⟩
  | ok u =>
    rw [share_of_ok sharedDir rootfs readOnly h hr]
    obtain ⟨hs, hc⟩ := requireNames_eq_ok.1 hr
    have hgrows := Host.keeps_make rootfs (target sharedDir sandbox container) readOnly h
    rcases Bind.make_cases rootfs (target sharedDir sandbox container) readOnly h with
      ⟨e, h', hm, -, hsame⟩ | ⟨l, h₁, -, hp, hm⟩
    · rw [hm] at hgrows ⊢
      exact ⟨_, h', [], rfl, by simp [hsame.2], hgrows, by simp, by simp⟩
    · have hn := Bind.hasNul_eq_false_of_prepare hp
      have hsame := SameMounts.keeps_prepare l.path (target sharedDir sandbox container) h
      rw [hp] at hsame
      obtain ⟨r, h', calls, ha, hcalls, hend⟩ := Bind.attach_ending l.path readOnly h₁ hn
      rw [hm, ha] at hgrows ⊢
      refine ⟨r, h', calls, rfl, by rw [hcalls, hsame.2], hgrows, fun _ => ⟨hs, hc, hn⟩, ?_⟩
      intro call hcall
      obtain ⟨ht, hd⟩ := hend.calls call hcall
      refine ⟨ht, fun hdetach => ?_⟩
      obtain ⟨step, cause, hstep, he⟩ := hd hdetach
      exact ⟨step, l.path, cause, hstep, he⟩

theorem unshare_calls (hs : IsOneName sandbox) (hc : IsOneName container)
    (hn : (target sharedDir sandbox container).hasNul = false) (h : Host) :
    ∃ r h' errno, unshare sharedDir sandbox container h = (r, h') ∧
      h'.calls = h.calls ++ [⟨.detach, target sharedDir sandbox container, errno⟩] := by
  obtain ⟨errno, h', hi, hcalls, -⟩ := Host.issue_recorded .detach h hn
  rw [unshare_of_ok sharedDir h (requireNames_eq_ok.2 ⟨hs, hc⟩)]
  exact ⟨_, h', errno, Prod.ext rfl (by rw [Bind.detach, Effect.orFail_snd, hi]), hcalls⟩

theorem unshare_idle (hno : ¬ (IsOneName sandbox ∧ IsOneName container ∧
      (target sharedDir sandbox container).hasNul = false)) (h : Host) :
    (unshare sharedDir sandbox container h).2 = h := by
  cases hr : requireNames sandbox container with
  | error e => rw [unshare_of_error sharedDir h hr]
  | ok u =>
    obtain ⟨hs, hc⟩ := requireNames_eq_ok.1 hr
    have hn : (target sharedDir sandbox container).hasNul = true := by
      cases hn : (target sharedDir sandbox container).hasNul with
      | true => rfl
      | false => exact absurd ⟨hs, hc, hn⟩ hno
    rw [unshare_of_ok sharedDir h hr, Bind.detach, Effect.orFail_snd, Host.issue_of_hasNul .detach h hn]

end Rootfs

theorem Path.display_line {p : Path} (hp : (Utf8.text? p.bytes).isSome = true) :
    Utf8.ofString (p.display ++ "\n") = p.bytes ++ Utf8.ofString "\n" := by
  obtain ⟨text, htext⟩ := Option.isSome_iff_exists.1 hp
  have hbytes := Utf8.text?_eq_some_iff.1 htext
  rw [display, ← hbytes, Utf8.lossy_ofString]
  simp only [Utf8.ofString, String.toList_append, Utf8.encode_append]

def Run.telling {α : Type} (text : α → String) : Except Error α → Run
  | .ok a => ⟨text a, .ok ()⟩
  | .error e => failed e

theorem Run.printing_apply {α : Type} (x : Action α) (text : α → String) (h : Host) :
    printing x text h = (telling text (x h).1, (x h).2) := by
  obtain ⟨r, h', hx⟩ : ∃ r h', x h = (r, h') := ⟨_, _, rfl⟩
  rw [printing, hx]
  cases r <;> rfl

/-- The call is on the place of the share that the invocation is about, which has no NUL in it. A bind
makes it, and detaches only after a step that failed; or it is the detach of an unbind. -/
def MountCall.IsAsked (call : MountCall) (i : Invocation) (c : Config) (run : Run) : Prop :=
  ∃ sandbox container, Rootfs.IsOneName sandbox ∧ Rootfs.IsOneName container ∧
    call.target = Rootfs.target c.sharedDir sandbox container ∧ call.target.hasNul = false ∧
    ((∃ rootfs readOnly, i.command = .bind sandbox container rootfs readOnly ∧
        (call.request = .detach → ∃ step source cause, step ≠ .bind ∧
          run = Run.failed (.mount step source call.target cause))) ∨
      i.command = .unbind sandbox container ∧ call.request = .detach)

namespace Invocation

/-- The invocation gets no configuration, or it only asks for something to be told. -/
def IsIdle (i : Invocation) (h : Host) : Prop :=
  (∃ e, (Config.inEffect i.config i.sharedDir h).1 = .error e) ∨
    (∃ p withMountInfo, i.command = .device p withMountInfo) ∨ ∃ p, i.command = .mountEntry p

section

variable {i : Invocation} {h : Host} {c : Config} {sandbox container : String}

theorem run_of_error {e : Error} (hc : (Config.inEffect i.config i.sharedDir h).1 = .error e) :
    i.run h = (Run.failed e, (Config.inEffect i.config i.sharedDir h).2) := by
  obtain ⟨r, h', hr⟩ : ∃ r h', Config.inEffect i.config i.sharedDir h = (r, h') := ⟨_, _, rfl⟩
  rw [hr] at hc ⊢
  subst hc
  rw [run, hr]

theorem run_of_config (hc : (Config.inEffect i.config i.sharedDir h).1 = .ok c) :
    i.run h = Run.command c i.command h := by
  obtain ⟨r, h', hr⟩ : ∃ r h', Config.inEffect i.config i.sharedDir h = (r, h') := ⟨_, _, rfl⟩
  rw [hr] at hc
  subst hc
  obtain ⟨rfl, -⟩ := Config.inEffect_ok hr
  rw [run, hr]

theorem config_again {h₂ : Host} (hc : (Config.inEffect i.config i.sharedDir h).1 = .ok c)
    (hg : h.Grows h₂) : (Config.inEffect i.config i.sharedDir h₂).1 = .ok c := by
  obtain ⟨h', hr⟩ : ∃ h', Config.inEffect i.config i.sharedDir h = (.ok c, h') :=
    ⟨_, Prod.ext hc rfl⟩
  obtain ⟨-, -, hagain⟩ := Config.inEffect_ok hr
  rw [hagain h₂ hg]

theorem isAbsolute_of_config (hc : (Config.inEffect i.config i.sharedDir h).1 = .ok c) :
    c.sharedDir.isAbsolute = true := by
  obtain ⟨h', hr⟩ : ∃ h', Config.inEffect i.config i.sharedDir h = (.ok c, h') :=
    ⟨_, Prod.ext hc rfl⟩
  exact (Config.inEffect_ok hr).2.1

theorem run_idle (hi : i.IsIdle h) : h.SpendsFaults (i.run h).2 := by
  cases hc : (Config.inEffect i.config i.sharedDir h).1 with
  | error e =>
    rw [run_of_error hc]
    exact Host.SpendsFaults.keeps_inEffect i.config i.sharedDir h
  | ok c =>
    rw [run_of_config hc]
    rcases hi with ⟨e, he⟩ | ⟨p, withMountInfo, hcommand⟩ | ⟨p, hcommand⟩
    · rw [hc] at he
      cases he
    · rw [hcommand]
      exact Host.SpendsFaults.of_runDevice c p withMountInfo h
    · rw [hcommand]
      have hkeeps : Effect.Keeps Host.SpendsFaults (MountTable.deviceAndType c.mountTable p) :=
        .bind (Host.SpendsFaults.keeps_lookup c.mountTable p) fun _ => .pure _
      rw [Run.command, Run.printing_apply]
      exact hkeeps h

theorem run_bind {rootfs : Path} {readOnly : Bool}
    (hc : (Config.inEffect i.config i.sharedDir h).1 = .ok c)
    (hcommand : i.command = .bind sandbox container rootfs readOnly) :
    ∃ r h' calls, i.run h =
        (Run.telling (fun _ => (Rootfs.target c.sharedDir sandbox container).display ++ "\n") r, h') ∧
      h'.calls = h.calls ++ calls ∧ h.Grows h' ∧
      (r = .ok () → Rootfs.IsOneName sandbox ∧ Rootfs.IsOneName container ∧
        (Rootfs.target c.sharedDir sandbox container).hasNul = false) ∧
      ∀ call ∈ calls, call.IsAsked i c
        (Run.telling (fun _ => (Rootfs.target c.sharedDir sandbox container).display ++ "\n") r) := by
  obtain ⟨r, h', calls, hshare, hcalls, hgrows, hmade, hall⟩ :=
    Rootfs.share_calls c.sharedDir sandbox container rootfs readOnly h
  refine ⟨r, h', calls, ?_, hcalls, hgrows, fun hr => hmade (.inl hr), fun call hcall => ?_⟩
  · rw [run_of_config hc, hcommand, Run.command, Run.printing_apply, hshare]
  · obtain ⟨hs, hk, hn⟩ := hmade (.inr (List.ne_nil_of_mem hcall))
    obtain ⟨ht, hd⟩ := hall call hcall
    refine ⟨sandbox, container, hs, hk, ht, by rw [ht, hn],
      .inl ⟨rootfs, readOnly, hcommand, fun hdetach => ?_⟩⟩
    obtain ⟨step, source, cause, hstep, rfl⟩ := hd hdetach
    exact ⟨step, source, cause, hstep, by rw [ht]; rfl⟩

theorem run_unbind (hc : (Config.inEffect i.config i.sharedDir h).1 = .ok c)
    (hcommand : i.command = .unbind sandbox container) :
    ∃ run h' calls, i.run h = (run, h') ∧ h'.calls = h.calls ++ calls ∧
      (∀ call ∈ calls, call.IsAsked i c run) ∧
      (Rootfs.IsOneName sandbox → Rootfs.IsOneName container →
        (Rootfs.target c.sharedDir sandbox container).hasNul = false →
        ∃ errno, calls = [⟨.detach, Rootfs.target c.sharedDir sandbox container, errno⟩]) := by
  rw [run_of_config hc, hcommand, Run.command, Run.printing_apply]
  by_cases hnames : Rootfs.IsOneName sandbox ∧ Rootfs.IsOneName container ∧
      (Rootfs.target c.sharedDir sandbox container).hasNul = false
  · obtain ⟨hs, hk, hn⟩ := hnames
    obtain ⟨r, h', errno, hunshare, hcalls⟩ := Rootfs.unshare_calls hs hk hn h
    rw [hunshare]
    refine ⟨_, h', _, rfl, hcalls, fun call hcall => ?_, fun _ _ _ => ⟨errno, rfl⟩⟩
    obtain rfl := List.mem_singleton.1 hcall
    exact ⟨sandbox, container, hs, hk, rfl, hn, .inr ⟨hcommand, rfl⟩⟩
  · rw [Rootfs.unshare_idle hnames]
    exact ⟨_, h, [], rfl, by simp, by simp, fun hs hk hn => absurd ⟨hs, hk, hn⟩ hnames⟩

end

/-- What a run of the invocation may do from `h` to `h'`, by these calls and no others. -/
structure IsConfined (i : Invocation) (h : Host) (run : Run) (h' : Host) (calls : List MountCall) :
    Prop where
  idle : i.IsIdle h → h'.tree = h.tree ∧ h'.mounts = h.mounts ∧ calls = []
  /-- The calls are on the place of one share, below an absolute shared directory. -/
  asked : ∀ call ∈ calls, ∃ c, (Config.inEffect i.config i.sharedDir h).1 = .ok c ∧
    c.sharedDir.isAbsolute = true ∧ call.IsAsked i c run
  silent : ∀ sandbox container rootfs readOnly, i.command = .bind sandbox container rootfs readOnly →
    ∀ e, run.result = .error e → run.printed = ""
  /-- A bind that succeeds prints the place of its share as it is shown, which is the place itself
  wherever that is text. -/
  printed : ∀ sandbox container rootfs readOnly, i.command = .bind sandbox container rootfs readOnly →
    run.result = .ok () → ∃ c, (Config.inEffect i.config i.sharedDir h).1 = .ok c ∧
      Rootfs.IsOneName sandbox ∧ Rootfs.IsOneName container ∧
      (Rootfs.target c.sharedDir sandbox container).hasNul = false ∧
      run.printed = (Rootfs.target c.sharedDir sandbox container).display ++ "\n" ∧
      ((Utf8.text? (Rootfs.target c.sharedDir sandbox container).bytes).isSome = true →
        Utf8.ofString run.printed =
          (Rootfs.target c.sharedDir sandbox container).bytes ++ Utf8.ofString "\n")
  detached : ∀ c sandbox container, i.command = .unbind sandbox container →
    (Config.inEffect i.config i.sharedDir h).1 = .ok c → Rootfs.IsOneName sandbox →
    Rootfs.IsOneName container → (Rootfs.target c.sharedDir sandbox container).hasNul = false →
    ∃ errno, calls = [⟨.detach, Rootfs.target c.sharedDir sandbox container, errno⟩]
  configured : ∀ c sandbox container rootfs readOnly,
    i.command = .bind sandbox container rootfs readOnly →
    (Config.inEffect i.config i.sharedDir h).1 = .ok c →
    (Config.inEffect i.config i.sharedDir h').1 = .ok c

section

variable {i : Invocation} {h h' : Host} {c : Config}

theorem IsConfined.of_error {e : Error} (hc : (Config.inEffect i.config i.sharedDir h).1 = .error e)
    (hs : h.SpendsFaults h') : i.IsConfined h (Run.failed e) h' [] where
  idle := by
    obtain ⟨_, rfl⟩ := hs
    exact fun _ => ⟨rfl, rfl, rfl⟩
  asked := by simp
  silent := fun _ _ _ _ _ _ _ => rfl
  printed := fun _ _ _ _ _ hr => by cases hr
  detached := fun c _ _ _ hc' => by
    rw [hc] at hc'
    cases hc'
  configured := fun c _ _ _ _ _ hc' => by
    rw [hc] at hc'
    cases hc'

theorem IsConfined.of_telling {run : Run} (hs : h.SpendsFaults h')
    (hb : ∀ sandbox container rootfs readOnly, i.command ≠ .bind sandbox container rootfs readOnly)
    (hu : ∀ sandbox container, i.command ≠ .unbind sandbox container) :
    i.IsConfined h run h' [] where
  idle := by
    obtain ⟨_, rfl⟩ := hs
    exact fun _ => ⟨rfl, rfl, rfl⟩
  asked := by simp
  silent := fun _ _ _ _ hcommand => absurd hcommand (hb _ _ _ _)
  printed := fun _ _ _ _ hcommand => absurd hcommand (hb _ _ _ _)
  detached := fun _ _ _ hcommand => absurd hcommand (hu _ _)
  configured := fun _ _ _ _ _ hcommand => absurd hcommand (hb _ _ _ _)

theorem not_isIdle (hc : (Config.inEffect i.config i.sharedDir h).1 = .ok c)
    (hd : ∀ p withMountInfo, i.command ≠ .device p withMountInfo)
    (hm : ∀ p, i.command ≠ .mountEntry p) : ¬ i.IsIdle h := by
  intro hi
  rcases hi with ⟨e, he⟩ | ⟨p, withMountInfo, hcommand⟩ | ⟨p, hcommand⟩
  · rw [hc] at he
    cases he
  · exact hd p withMountInfo hcommand
  · exact hm p hcommand

section

variable {sandbox container : String}
  (hc : (Config.inEffect i.config i.sharedDir h).1 = .ok c)
include hc

theorem confined_of_bind {rootfs : Path} {readOnly : Bool}
    (hcommand : i.command = .bind sandbox container rootfs readOnly) :
    ∃ run h' calls, i.run h = (run, h') ∧ h'.calls = h.calls ++ calls ∧
      i.IsConfined h run h' calls := by
  obtain ⟨r, h', calls, hrun, hcalls, hgrows, hok, hasked⟩ := run_bind hc hcommand
  refine ⟨_, h', calls, hrun, hcalls, {
    idle := fun hi => absurd hi (not_isIdle hc (by simp [hcommand]) (by simp [hcommand]))
    asked := fun call hcall => ⟨c, hc, isAbsolute_of_config hc, hasked call hcall⟩
    silent := ?_
    printed := ?_
    detached := by simp [hcommand]
    configured := ?_ }⟩
  · intro _ _ _ _ _ e he
    cases r with
    | ok u => cases he
    | error e' => rfl
  · intro sandbox' container' rootfs' readOnly' hcommand' hr
    obtain ⟨rfl, rfl, rfl, rfl⟩ := Command.bind.inj (hcommand.symm.trans hcommand')
    cases r with
    | error e => cases hr
    | ok u =>
      obtain ⟨hs, hk, hn⟩ := hok rfl
      exact ⟨c, hc, hs, hk, hn, rfl, fun htext => Path.display_line htext⟩
  · intro c' _ _ _ _ _ hc'
    rw [hc] at hc'
    cases hc'
    exact config_again hc hgrows

theorem confined_of_unbind (hcommand : i.command = .unbind sandbox container) :
    ∃ run h' calls, i.run h = (run, h') ∧ h'.calls = h.calls ++ calls ∧
      i.IsConfined h run h' calls := by
  obtain ⟨run, h', calls, hrun, hcalls, hasked, hone⟩ := run_unbind hc hcommand
  refine ⟨run, h', calls, hrun, hcalls, {
    idle := fun hi => absurd hi (not_isIdle hc (by simp [hcommand]) (by simp [hcommand]))
    asked := fun call hcall => ⟨c, hc, isAbsolute_of_config hc, hasked call hcall⟩
    silent := by simp [hcommand]
    printed := by simp [hcommand]
    detached := ?_
    configured := by simp [hcommand] }⟩
  intro c' sandbox' container' hcommand' hc'
  obtain ⟨rfl, rfl⟩ := Command.unbind.inj (hcommand.symm.trans hcommand')
  rw [hc] at hc'
  cases hc'
  exact hone

end

/-- By the commands: those that only tell something spend faults, and a bind or an unbind does what its
share or unshare does below the shared directory in effect. -/
theorem run_confined (i : Invocation) (h : Host) :
    ∃ run h' calls, i.run h = (run, h') ∧ h'.calls = h.calls ++ calls ∧
      i.IsConfined h run h' calls := by
  cases hc : (Config.inEffect i.config i.sharedDir h).1 with
  | error e =>
    have hs := Host.SpendsFaults.keeps_inEffect i.config i.sharedDir h
    exact ⟨_, _, [], run_of_error hc, by simp [hs.calls], .of_error hc hs⟩
  | ok c =>
    cases hcommand : i.command with
    | device p withMountInfo =>
      have hs := run_idle (.inr (.inl ⟨p, withMountInfo, hcommand⟩) : i.IsIdle h)
      exact ⟨(i.run h).1, (i.run h).2, [], rfl, by simp [hs.calls],
        .of_telling hs (by simp [hcommand]) (by simp [hcommand])⟩
    | mountEntry p =>
      have hs := run_idle (.inr (.inr ⟨p, hcommand⟩) : i.IsIdle h)
      exact ⟨(i.run h).1, (i.run h).2, [], rfl, by simp [hs.calls],
        .of_telling hs (by simp [hcommand]) (by simp [hcommand])⟩
    | bind sandbox container rootfs readOnly => exact confined_of_bind hc hcommand
    | unbind sandbox container => exact confined_of_unbind hc hcommand

end

end Invocation

theorem Run.ofArguments_of_ok {environment : Option Bytes} {args : List Bytes} {i : Invocation}
    (hi : Arguments.invocation environment args = .ok i) (h : Host) :
    ofArguments environment args h = (.ok (i.run h).1, (i.run h).2) := by
  unfold ofArguments
  rw [hi]
  rfl

theorem Run.eq_of_ofArguments {environment : Option Bytes} {args : List Bytes} {i : Invocation}
    {run : Run} {h h' : Host} (hi : Arguments.invocation environment args = .ok i)
    (hr : ofArguments environment args h = (.ok run, h')) :
    (i.run h).1 = run ∧ (i.run h).2 = h' := by
  cases (ofArguments_of_ok hi h).symm.trans hr
  exact ⟨rfl, rfl⟩

/-- Arguments that are turned down leave the host as it is, and all others make a run that is confined to
the place of one share. After a bind an unbind with the same options detaches at the place of the bind,
if that can be handed to a call at all. -/
theorem Run.confined (environment : Option Bytes) (args : List Bytes) (h : Host) :
    (∀ refusal, Arguments.invocation environment args = .error refusal →
      ofArguments environment args h = (.error refusal, h)) ∧
    ∀ i, Arguments.invocation environment args = .ok i → ∃ run h' calls,
      ofArguments environment args h = (.ok run, h') ∧ h'.calls = h.calls ++ calls ∧
      i.IsConfined h run h' calls ∧
      ∀ c sandbox container rootfs readOnly, i.command = .bind sandbox container rootfs readOnly →
        (Config.inEffect i.config i.sharedDir h).1 = .ok c → Rootfs.IsOneName sandbox →
        Rootfs.IsOneName container → (Rootfs.target c.sharedDir sandbox container).hasNul = false →
        ∀ args' i', Arguments.invocation environment args' = .ok i' → i'.config = i.config →
          i'.sharedDir = i.sharedDir → i'.command = .unbind sandbox container →
          ∃ run' h'' errno, ofArguments environment args' h' = (.ok run', h'') ∧
            h''.calls =
              h'.calls ++ [⟨.detach, Rootfs.target c.sharedDir sandbox container, errno⟩] := by
  refine ⟨fun refusal hr => ?_, fun i hi => ?_⟩
  · unfold ofArguments
    rw [hr]
  obtain ⟨run, h', calls, hrun, hcalls, hconfined⟩ := i.run_confined h
  refine ⟨run, h', calls, by rw [ofArguments_of_ok hi, hrun], hcalls, hconfined, ?_⟩
  intro c sandbox container rootfs readOnly hcommand hc hs hk hn args' i' hi' hconfig hdir hcommand'
  have hc' := hconfined.configured c sandbox container rootfs readOnly hcommand hc
  rw [← hconfig, ← hdir] at hc'
  obtain ⟨run', h'', calls', hrun', hcalls', hconfined'⟩ := i'.run_confined h'
  obtain ⟨errno, rfl⟩ := hconfined'.detached c sandbox container hcommand' hc' hs hk hn
  exact ⟨run', h'', errno, by rw [ofArguments_of_ok hi', hrun'], hcalls'⟩

namespace Run

/-- A root filesystem `/r`, and in `/f` a configuration whose shared directory has a NUL in it. -/
def shareable : Host :=
  { Host.initial with
    tree := ⟨[([[0x72]], .dir 0o755),
      ([[0x66]], .leaf .regular 0o644 (Utf8.ofString "\x7b\"shared_dir\":\"/a\\u0000\"\x7d"))]⟩ }

def arguments (options : List Bytes) (command : String) (rest : List String) : List Bytes :=
  options ++ ([command, "--sandbox", "s", "--container", "c"] ++ rest).map Utf8.ofString

theorem confined_shareable :
    let options := [Utf8.ofString "--shared-dir", [slash, 0x73]]
    let place := Path.ofString "/s/s/c/rootfs"
    (∃ i : Invocation, ∃ run h',
      ofArguments none (arguments options "bind" ["--rootfs", "/r"]) shareable = (.ok run, h') ∧
      i.IsConfined shareable run h'
        [⟨.bind ⟨[slash, 0x72]⟩, place, none⟩, ⟨.makePrivate, place, none⟩] ∧
      run.result = .ok () ∧ Utf8.ofString run.printed = place.bytes ++ Utf8.ofString "\n" ∧
      ∃ run' h'', ofArguments none (arguments options "unbind" []) h' = (.ok run', h'') ∧
        h''.calls = h'.calls ++ [⟨.detach, place, none⟩] ∧ run'.result = .ok () ∧ h''.mounts = []) ∧
    ofArguments none (arguments options "bind" []) shareable =
      (.error .missingArgument, shareable) := by
  intro options place
  let bind : Invocation :=
    ⟨none, some ⟨[slash, 0x73]⟩, false, .bind "s" "c" ⟨[slash, 0x72]⟩ false⟩
  let unbind : Invocation := ⟨none, some ⟨[slash, 0x73]⟩, false, .unbind "s" "c"⟩
  let c : Config := { Config.default with sharedDir := ⟨[slash, 0x73]⟩ }
  have hbind : Arguments.invocation none (arguments options "bind" ["--rootfs", "/r"]) = .ok bind := by
    decide +kernel
  have hunbind : Arguments.invocation none (arguments options "unbind" []) = .ok unbind := by
    decide +kernel
  have hrefused : Arguments.invocation none (arguments options "bind" []) =
      .error .missingArgument := by decide +kernel
  have hc : (Config.inEffect bind.config bind.sharedDir shareable).1 = .ok c := by decide +kernel
  have hplace : Rootfs.target c.sharedDir "s" "c" = place := by decide +kernel
  have hs : Rootfs.IsOneName "s" := Rootfs.isSingleName_iff.1 (by decide)
  have hk : Rootfs.IsOneName "c" := Rootfs.isSingleName_iff.1 (by decide)
  have hn : (Rootfs.target c.sharedDir "s" "c").hasNul = false := by decide +kernel
  obtain ⟨-, hruns⟩ := Run.confined none (arguments options "bind" ["--rootfs", "/r"]) shareable
  obtain ⟨run, h', calls, hrun, hcalls, hconfined, hback⟩ := hruns bind hbind
  obtain ⟨run', h'', errno, hrun', hcalls'⟩ :=
    hback c "s" "c" ⟨[slash, 0x72]⟩ false rfl hc hs hk hn _ unbind hunbind rfl rfl rfl
  rw [hplace] at hcalls'
  refine ⟨⟨bind, run, h', hrun, ?_⟩, (Run.confined none _ shareable).1 _ hrefused⟩
  -- both runs are concrete, so that what they come to can be computed
  obtain ⟨rfl, rfl⟩ := eq_of_ofArguments hbind hrun
  obtain ⟨rfl, rfl⟩ := eq_of_ofArguments hunbind hrun'
  have hended : (bind.run shareable).1.result = .ok () := by decide +kernel
  have hmade : (bind.run shareable).2.calls =
      [⟨.bind ⟨[slash, 0x72]⟩, place, none⟩, ⟨.makePrivate, place, none⟩] := by decide +kernel
  have hended' : (unbind.run (bind.run shareable).2).1.result = .ok () ∧
      (unbind.run (bind.run shareable).2).2.mounts = [] := by decide +kernel
  have hlast : (unbind.run (bind.run shareable).2).2.calls.getLast? =
      some ⟨.detach, place, none⟩ := by decide +kernel
  rw [hcalls', List.getLast?_concat] at hlast
  cases hlast
  obtain rfl : calls = _ := (List.nil_append calls).symm.trans (hcalls.symm.trans hmade)
  obtain ⟨c', hc', -, -, -, -, hprinted⟩ := hconfined.printed "s" "c" _ _ rfl hended
  cases hc.symm.trans hc'
  rw [hplace] at hprinted
  exact ⟨hconfined, hended, hprinted (by decide +kernel), _, _, hrun', hcalls', hended'⟩

/-- What a bind prints is not its place where that is no text; and no unbind makes a call for a place
with a NUL in it. -/
theorem confined_unreadable :
    (∃ i c, Arguments.invocation none (arguments [Utf8.ofString "--shared-dir", [slash, 0x73, 0xFF]]
          "bind" ["--rootfs", "/r"]) = .ok i ∧
      (Config.inEffect i.config i.sharedDir shareable).1 = .ok c ∧
      (i.run shareable).1.result = .ok () ∧
      Utf8.ofString (i.run shareable).1.printed ≠
        (Rootfs.target c.sharedDir "s" "c").bytes ++ Utf8.ofString "\n") ∧
    ∃ i i' c, Arguments.invocation none (arguments [Utf8.ofString "--config", [slash, 0x66]]
          "bind" ["--rootfs", "/r"]) = .ok i ∧
      Arguments.invocation none (arguments [Utf8.ofString "--config", [slash, 0x66]] "unbind" []) =
        .ok i' ∧
      i'.config = i.config ∧ i'.sharedDir = i.sharedDir ∧
      (Config.inEffect i'.config i'.sharedDir (i.run shareable).2).1 = .ok c ∧
      (i'.run (i.run shareable).2).1.result =
        .error (.unmount (Rootfs.target c.sharedDir "s" "c") (.os .invalidArgument)) ∧
      (i'.run (i.run shareable).2).2.calls = [] := by
  let below (dir : Path) : Config := { Config.default with sharedDir := dir }
  constructor
  · refine ⟨⟨none, some ⟨[slash, 0x73, 0xFF]⟩, false, .bind "s" "c" ⟨[slash, 0x72]⟩ false⟩,
      below ⟨[slash, 0x73, 0xFF]⟩, ?_⟩
    decide +kernel
  · refine ⟨⟨some ⟨[slash, 0x66]⟩, none, false, .bind "s" "c" ⟨[slash, 0x72]⟩ false⟩,
      ⟨some ⟨[slash, 0x66]⟩, none, false, .unbind "s" "c"⟩, below ⟨[slash, 0x61, 0]⟩, ?_⟩
    decide +kernel

end Run

end SandboxMounts
