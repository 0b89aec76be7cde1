import SandboxMounts.Bind
import SandboxMounts.Proofs.CallRecord

/-!
A bind from its first call to its last. Preparing the destination makes no mount call; the steps then
run in order up to the first that fails, and what the failed ones leave is a matter of the detach alone.
-/

set_option autoImplicit false

namespace SandboxMounts

def BindStep.request (source : Path) : BindStep → MountRequest
  | .bind => .bind source
  | .makePrivate => .makePrivate
  | .remountReadOnly => .remountReadOnly source

def Error.isMount : Error → Bool
  | .mount _ _ _ _ => true
  | _ => false

namespace Host

variable {p : Path} {h h' : Host}

theorem mkdirIn_ok (hm : mkdirIn p h = .ok h') :
    ∃ dir n, h.locate .kept p = .ok (.vacant dir n) ∧ h' = h.add (n :: dir) (.dir h.modeOf) := by
  obtain ⟨place, hl, hm⟩ := except_bind_eq_ok.1 hm
  cases place with
  | node l => cases hm
  | adrift l => cases hm
  | vacant dir n =>
    cases hm
    exact ⟨dir, n, hl, rfl⟩

theorem createIn_ok (hc : createIn p h = .ok h') :
    (∃ l kind mode content, h.locate .created p = .ok (.node l) ∧
        h.tree.get? l = some (.leaf kind mode content) ∧ h' = h) ∨
      ∃ dir n, h.locate .created p = .ok (.vacant dir n) ∧
        h' = h.add (n :: dir) (.leaf .regular h.modeOf []) := by
  obtain ⟨place, hl, hc⟩ := except_bind_eq_ok.1 hc
  cases place with
  | adrift l => cases hc
  | node l =>
    simp only at hc
    split at hc <;> cases hc
    exact .inl ⟨l, _, _, _, hl, ‹_›, rfl⟩
  | vacant dir n =>
    cases hc
    exact .inr ⟨dir, n, hl, rfl⟩

end Host

namespace Effect.Keeps

section

variable {R : Host → Host → Prop} [IsPreorder Host R]

theorem resolve (p : Path) : Keeps R (Host.resolve p) :=
  .bind (.refuseNul p _) fun _ => .look _

section

variable {destination : Path} (hi : ∀ request, Keeps R (Host.issue request destination))
include hi

theorem followUp (step : BindStep) (request : MountRequest) (source : Path) :
    Keeps R (Bind.followUp step request source destination) := by
  refine .bind (.orFail (.outcome (hi request))) fun r => ?_
  split
  · exact .pure ()
  · refine .bind ?_ fun _ => .throw _
    exact .bind (.orFail (.outcome (hi .detach))) fun _ => .pure ()

theorem attach (source : Path) (readOnly : Bool) :
    Keeps R (Bind.attach source destination readOnly) := by
  refine .bind (.orFail (hi (.bind source))) fun _ => ?_
  refine .bind (followUp hi .makePrivate .makePrivate source) fun _ => ?_
  exact .ite (followUp hi .remountReadOnly (.remountReadOnly source) source) (.pure ())

end

variable (hf : ∀ k p, Keeps R (Host.meetFault k p))
include hf

theorem issue (hm : ∀ (h : Host) (mounts : List Mount), R h { h with mounts })
    (hc : ∀ (h : Host) (c : MountCall), R h (h.record c)) (request : MountRequest) (target : Path) :
    Keeps R (Host.issue request target) := by
  have hperform : Keeps R (do
      Host.meetFault request.kind target
      Host.change (Host.performIn request target) : Call Unit) := by
    refine .bind (hf _ target) fun _ => .change fun h h' hp => ?_
    obtain ⟨ms, -, rfl⟩ := Host.performIn_ok hp
    exact hm h ms
  refine .bind (.refuseNul target _) fun _ h => ?_
  have hR := hperform h
  split <;> rename_i hr <;> rw [hr] at hR
  · exact trans_of R hR (hc _ _)
  · exact trans_of R hR (hc _ _)
  · exact hR

theorem metadata (p : Path) : Keeps R (Host.metadata p) :=
  .bind (.refuseNul p _) fun _ => .bind (hf _ p) fun _ => .bind (.look _) fun _ => .pure _

theorem mkdir {p : Path} (ha : ∀ {h : Host} {dir : Location} {n : Name},
    h.locate .kept p = .ok (.vacant dir n) → R h (h.add (n :: dir) (.dir h.modeOf))) :
    Keeps R (Host.mkdir p) := by
  refine .bind (.refuseNul p _) fun _ => .bind (hf _ p) fun _ => .change fun h h' hm => ?_
  obtain ⟨dir, n, hl, rfl⟩ := Host.mkdirIn_ok hm
  exact ha hl

theorem create {p : Path} (ha : ∀ {h : Host} {dir : Location} {n : Name},
    h.locate .created p = .ok (.vacant dir n) →
      R h (h.add (n :: dir) (.leaf .regular h.modeOf []))) : Keeps R (Host.create p) := by
  refine .bind (.refuseNul p _) fun _ => .bind (hf _ p) fun _ => .change fun h h' hc => ?_
  rcases Host.createIn_ok hc with ⟨l, _, _, _, -, -, rfl⟩ | ⟨dir, n, hl, rfl⟩
  · exact refl_of R h'
  · exact ha hl

-- Whatever is made is made where there was nothing.
theorem prepare (ha : ∀ {h : Host} {how : LastName} {p : Path} {dir : Location} {n : Name}
    (node : Node), h.locate how p = .ok (.vacant dir n) → R h (h.add (n :: dir) node))
    (source destination : Path) : Keeps R (Bind.prepare source destination) := by
  refine .bind (metadata hf source) fun _ => .bind (.mkdirs fun p _ => mkdir hf (ha _)) fun _ => ?_
  refine .ite (.bind (.outcome (mkdir hf (ha _))) fun _ => ?_) (create hf (ha _))
  split
  · exact .pure ()
  · exact .pure ()
  · exact .throw _

omit hf in
theorem make {source destination : Path} {readOnly : Bool}
    (hp : ∀ l : Location, Keeps R (Bind.prepare l.path destination))
    (ha : ∀ l : Location, Keeps R (Bind.attach l.path destination readOnly)) :
    Keeps R (Bind.make source destination readOnly) := by
  have hrest : Keeps R (do
      let resolved ← (Host.resolve source).orFail (.sourceResolution source)
      (Bind.prepare resolved.path destination).orFail (.destinationCreation destination)
      Bind.attach resolved.path destination readOnly : Action Unit) :=
    .bind (.orFail (.resolve source)) fun l => .bind (.orFail (hp l)) fun _ => ha l
  refine .ite (.bind (.throw _) fun _ => ?_) (.ite (.bind (.throw _) fun _ => hrest) hrest)
  exact .ite (.bind (.throw _) fun _ => hrest) hrest

end

end Effect.Keeps

theorem SameMounts.keeps_prepare (source destination : Path) :
    Effect.Keeps SameMounts (Bind.prepare source destination) :=
  .prepare (.meetFault fun _ _ => ⟨rfl, rfl⟩) (fun _ _ => ⟨rfl, rfl⟩) source destination

namespace Bind

def steps (readOnly : Bool) : List BindStep :=
  [.bind, .makePrivate] ++ if readOnly then [.remountReadOnly] else []

def succeeded (source destination : Path) (s : BindStep) : MountCall :=
  ⟨s.request source, destination, none⟩

def failed (source destination : Path) (s : BindStep) (e : Errno) : MountCall :=
  ⟨s.request source, destination, some e⟩

/-- How the steps of a bind end on the mounts `ms`: the result, the calls and the mounts after. -/
inductive Ending (source destination : Path) (readOnly : Bool) (ms : List Mount) :
    Except Error Unit → List MountCall → List Mount → Prop
  | complete :
    Ending source destination readOnly ms (.ok ())
      ((steps readOnly).map (succeeded source destination))
      (⟨source, destination, true, readOnly⟩ :: ms)
  | refused (e : Errno) :
    Ending source destination readOnly ms (.error (.mount .bind source destination (.os e)))
      [failed source destination .bind e] ms
  | undone (before later : List BindStep) (step : BindStep) (e : Errno)
      (hs : steps readOnly = .bind :: before ++ step :: later) :
    Ending source destination readOnly ms (.error (.mount step source destination (.os e)))
      ((.bind :: before).map (succeeded source destination) ++
        [failed source destination step e, ⟨.detach, destination, none⟩]) ms
  /-- The detach failed as well, and the bind is still there, as far as it got. -/
  | leftBehind (before later : List BindStep) (step : BindStep) (e e' : Errno)
      (hs : steps readOnly = .bind :: before ++ step :: later) :
    Ending source destination readOnly ms (.error (.mount step source destination (.os e)))
      ((.bind :: before).map (succeeded source destination) ++
        [failed source destination step e, ⟨.detach, destination, some e'⟩])
      (⟨source, destination, before.contains .makePrivate, false⟩ :: ms)

/-- The source has been looked at and the parents are there; what is left is one call at the destination,
which may say that something is there already if a directory was wanted. -/
theorem prepare_ok {source destination : Path} {h h' : Host}
    (hp : prepare source destination h = (.ok (), h')) :
    ∃ node h₁ h₂, Host.metadata source h = (.ok node, h₁) ∧
      Host.mkdirs destination.parents h₁ = (.ok (), h₂) ∧
      ((node.isDir = true ∧ ∃ r, Host.mkdir destination h₂ = (r, h') ∧
          (r = .ok () ∨ r = .error (.os .alreadyExists))) ∨
        node.isDir = false ∧ Host.create destination h₂ = (.ok (), h')) := by
  obtain ⟨node, h₁, hmeta, hrest⟩ := Effect.bind_eq_ok.1 hp
  obtain ⟨_, h₂, hdirs, hlast⟩ := Effect.bind_eq_ok.1 hrest
  refine ⟨node, h₁, h₂, hmeta, hdirs, ?_⟩
  split at hlast
  · rename_i hd
    rw [Effect.bind_of_ok (Effect.outcome_apply _ h₂)] at hlast
    obtain ⟨r, h₃, hm⟩ : ∃ r h₃, Host.mkdir destination h₂ = (r, h₃) := ⟨_, _, rfl⟩
    rw [hm] at hlast
    simp only at hlast
    split at hlast <;> cases hlast
    · exact .inl ⟨hd, _, hm, .inl rfl⟩
    · exact .inl ⟨hd, _, hm, .inr rfl⟩
  · exact .inr ⟨Bool.eq_false_iff.2 ‹_›, hlast⟩

theorem hasNul_eq_false_of_prepare {source destination : Path} {h h' : Host}
    (hp : prepare source destination h = (.ok (), h')) : destination.hasNul = false := by
  rw [Bool.eq_false_iff]
  intro hn
  obtain ⟨node, h₁, h₂, -, -, hlast⟩ := prepare_ok hp
  rcases hlast with ⟨-, r, hm, hr⟩ | ⟨-, hc⟩
  · have hm' : Host.mkdir destination h₂ = (.error .nulInPath, h₂) :=
      Effect.bind_of_error (Host.refuseNul_of_hasNul hn)
    rw [hm'] at hm
    cases hm
    rcases hr with hr | hr <;> cases hr
  · have hc' : Host.create destination h₂ = (.error .nulInPath, h₂) :=
      Effect.bind_of_error (Host.refuseNul_of_hasNul hn)
    rw [hc'] at hc
    cases hc

theorem followUp_ok {step : BindStep} {request : MountRequest} {source destination : Path}
    {h h' : Host} (hi : Host.issue request destination h = (.ok (), h')) :
    followUp step request source destination h = (.ok (), h') := by
  have ho := Effect.outcome_apply (Host.issue request destination) h
  rw [hi] at ho
  unfold followUp
  rw [Effect.bind_of_ok (Effect.orFail_of_ok ho)]
  rfl

theorem followUp_error {step : BindStep} {request : MountRequest} {source destination : Path}
    {h h' : Host} {e : IoError} (hi : Host.issue request destination h = (.error e, h')) :
    followUp step request source destination h =
      (.error (.mount step source destination e), (Host.issue .detach destination h').2) := by
  have ho := Effect.outcome_apply (Host.issue request destination) h
  rw [hi] at ho
  have hd := Effect.outcome_apply (Host.issue .detach destination) h'
  unfold followUp
  rw [Effect.bind_of_ok (Effect.orFail_of_ok ho)]
  exact Effect.bind_of_ok (Effect.discard_of_ok (Effect.orFail_of_ok hd))

/-- A follow-up works on the newest mount `m`. Where it fails, `m` is gone unless the detach failed. -/
theorem followUp_cases (step : BindStep) (request : MountRequest) (source : Path) {destination : Path}
    {h : Host} {m : Mount} {ms : List Mount} (hn : destination.hasNul = false)
    (hms : h.mounts = m :: ms) (hm : m.target = destination) :
    (∃ h', followUp step request source destination h = (.ok (), h') ∧
      h'.calls = h.calls ++ [⟨request, destination, none⟩] ∧
      Host.mountsAfter? request destination (m :: ms) = some h'.mounts) ∨
    ∃ e cleanup h', followUp step request source destination h =
        (.error (.mount step source destination (.os e)), h') ∧
      h'.calls = h.calls ++ [⟨request, destination, some e⟩, ⟨.detach, destination, cleanup⟩] ∧
      h'.mounts = if cleanup.isSome then m :: ms else ms := by
  obtain ⟨errno, h₁, hi, hcalls, hafter⟩ := Host.issue_recorded request h hn
  rw [hms] at hafter
  cases errno with
  | none => exact .inl ⟨h₁, followUp_ok hi, hcalls, hafter⟩
  | some e =>
    have hsame : h₁.mounts = m :: ms := (Option.some.inj hafter).symm
    obtain ⟨cleanup, h₂, hd, hcalls', hafter'⟩ := Host.issue_recorded .detach h₁ hn
    refine .inr ⟨e, cleanup, h₂, ?_, by simp [hcalls', hcalls], ?_⟩
    · rw [followUp_error hi, hd]
    · rw [hsame] at hafter'
      cases cleanup with
      | none => exact (Option.some.inj ((Host.detach_newest ms hm).symm.trans hafter')).symm
      | some e' => exact (Option.some.inj hafter').symm

theorem Ending.of_failed {source destination : Path} {readOnly : Bool} {ms ms' : List Mount}
    {step : BindStep} {e : Errno} {cleanup : Option Errno} (before later : List BindStep)
    (hs : steps readOnly = .bind :: before ++ step :: later)
    (hms : ms' = if cleanup.isSome then
      ⟨source, destination, before.contains .makePrivate, false⟩ :: ms else ms) :
    Ending source destination readOnly ms (.error (.mount step source destination (.os e)))
      ((.bind :: before).map (succeeded source destination) ++
        [failed source destination step e, ⟨.detach, destination, cleanup⟩]) ms' := by
  subst hms
  cases cleanup with
  | none => exact .undone before later step e hs
  | some e' => exact .leftBehind before later step e e' hs

theorem remount_ending (source : Path) {destination : Path} {h : Host} {ms : List Mount}
    (hn : destination.hasNul = false) (hms : h.mounts = ⟨source, destination, true, false⟩ :: ms) :
    ∃ r h' calls,
      followUp .remountReadOnly (.remountReadOnly source) source destination h = (r, h') ∧
      h'.calls = h.calls ++ calls ∧
      Ending source destination true ms r
        ([.bind, .makePrivate].map (succeeded source destination) ++ calls) h'.mounts := by
  rcases followUp_cases .remountReadOnly (.remountReadOnly source) source hn hms rfl with
    ⟨h', hf, hcalls, hafter⟩ | ⟨e, cleanup, h', hf, hcalls, hms'⟩
  · refine ⟨.ok (), h', _, hf, hcalls, ?_⟩
    rw [Host.remountReadOnly_newest] at hafter
    rw [← Option.some.inj hafter]
    exact .complete
  · exact ⟨_, h', _, hf, hcalls, Ending.of_failed [.makePrivate] [] rfl hms'⟩

theorem followUps_ending (source : Path) {destination : Path} (readOnly : Bool) {h : Host}
    {ms : List Mount} (hn : destination.hasNul = false)
    (hms : h.mounts = ⟨source, destination, false, false⟩ :: ms) :
    ∃ r h' calls, (do
        followUp .makePrivate .makePrivate source destination
        if readOnly then followUp .remountReadOnly (.remountReadOnly source) source destination
        : Action Unit) h = (r, h') ∧
      h'.calls = h.calls ++ calls ∧
      Ending source destination readOnly ms r (succeeded source destination .bind :: calls)
        h'.mounts := by
  rcases followUp_cases .makePrivate .makePrivate source hn hms rfl with
    ⟨h₁, hf, hcalls, hafter⟩ | ⟨e, cleanup, h₁, hf, hcalls, hms₁⟩
  · rw [Host.makePrivate_newest] at hafter
    have hms₁ : h₁.mounts = ⟨source, destination, true, false⟩ :: ms := (Option.some.inj hafter).symm
    rw [Effect.bind_of_ok hf]
    cases readOnly with
    | false =>
      refine ⟨.ok (), h₁, _, rfl, hcalls, ?_⟩
      rw [hms₁]
      exact .complete
    | true =>
      obtain ⟨r, h₂, calls, hr, hcalls₂, hend⟩ := remount_ending source hn hms₁
      exact ⟨r, h₂, _, hr, by rw [hcalls₂, hcalls, List.append_assoc]; rfl, hend⟩
  · exact ⟨_, h₁, _, Effect.bind_of_error hf, hcalls,
      Ending.of_failed [] (if readOnly then [.remountReadOnly] else []) rfl hms₁⟩

theorem attach_ending (source : Path) {destination : Path} (readOnly : Bool) (h : Host)
    (hn : destination.hasNul = false) :
    ∃ r h' calls, attach source destination readOnly h = (r, h') ∧ h'.calls = h.calls ++ calls ∧
      Ending source destination readOnly h.mounts r calls h'.mounts := by
  obtain ⟨errno, h₁, hi, hcalls, hafter⟩ := Host.issue_recorded (.bind source) h hn
  unfold attach
  cases errno with
  | some e =>
    refine ⟨_, h₁, _, Effect.bind_of_error (Effect.orFail_of_error hi), hcalls, ?_⟩
    rw [← Option.some.inj hafter]
    exact .refused e
  | none =>
    have hms : h₁.mounts = ⟨source, destination, false, false⟩ :: h.mounts :=
      (Option.some.inj hafter).symm
    rw [Effect.bind_of_ok (Effect.orFail_of_ok hi)]
    obtain ⟨r, h₂, calls, hr, hcalls₂, hend⟩ := followUps_ending source readOnly hn hms
    exact ⟨r, h₂, _, hr, by rw [hcalls₂, hcalls, List.append_assoc]; rfl, hend⟩

/-- How far a bind gets without a mount call: it is turned down as it is asked for, the source leads
nowhere, the destination cannot be prepared, or there is nothing left to do but its steps. -/
inductive Outset (source destination : Path) (readOnly : Bool) (h : Host) :
    Except Error Unit × Host → Prop
  | refused (argument : String) :
    Outset source destination readOnly h (.error (.emptyArgument argument), h)
  | unresolved {cause : IoError} (hl : Host.resolve source h = (.error cause, h)) :
    Outset source destination readOnly h (.error (.sourceResolution source cause), h)
  | unprepared {l : Location} {cause : IoError} {h₁ : Host}
    (hl : Host.resolve source h = (.ok l, h))
    (hp : prepare l.path destination h = (.error cause, h₁)) :
    Outset source destination readOnly h (.error (.destinationCreation destination cause), h₁)
  | prepared {l : Location} {h₁ : Host} (hl : Host.resolve source h = (.ok l, h))
    (hp : prepare l.path destination h = (.ok (), h₁)) :
    Outset source destination readOnly h (attach l.path destination readOnly h₁)

theorem make_outset (source destination : Path) (readOnly : Bool) (h : Host) :
    Outset source destination readOnly h (make source destination readOnly h) := by
  by_cases hs : source.isEmpty
  · have hmake : make source destination readOnly h = (.error (.emptyArgument "source"), h) := by
      simp only [make, hs, if_true]
      rfl
    rw [hmake]
    exact .refused "source"
  by_cases hd : destination.isEmpty
  · have hmake : make source destination readOnly h = (.error (.emptyArgument "destination"), h) := by
      simp only [make, hs, hd, if_true]
      rfl
    rw [hmake]
    exact .refused "destination"
  have hmake : make source destination readOnly = (do
      let resolved ← (Host.resolve source).orFail (.sourceResolution source)
      (prepare resolved.path destination).orFail (.destinationCreation destination)
      attach resolved.path destination readOnly : Action Unit) := by
    simp only [make, hs, hd, Bool.false_eq_true, if_false]
  obtain ⟨r, h₀, hr⟩ : ∃ r h₀, Host.resolve source h = (r, h₀) := ⟨_, _, rfl⟩
  obtain rfl : h = h₀ := by
    have hsame : h = (Host.resolve source h).2 := Effect.Keeps.resolve source h
    rwa [hr] at hsame
  rw [hmake]
  cases r with
  | error e =>
    rw [Effect.bind_of_error (Effect.orFail_of_error hr)]
    exact .unresolved hr
  | ok l =>
    rw [Effect.bind_of_ok (Effect.orFail_of_ok hr)]
    obtain ⟨r, h₁, hp⟩ : ∃ r h₁, prepare l.path destination h = (r, h₁) := ⟨_, _, rfl⟩
    cases r with
    | error e =>
      rw [Effect.bind_of_error (Effect.orFail_of_error hp)]
      exact .unprepared hr hp
    | ok u =>
      rw [Effect.bind_of_ok (Effect.orFail_of_ok hp)]
      exact .prepared hr hp

theorem make_cases (source destination : Path) (readOnly : Bool) (h : Host) :
    (∃ e h', make source destination readOnly h = (.error e, h') ∧ e.isMount = false ∧
      SameMounts h h') ∨
    ∃ l h₁, Host.resolve source h = (.ok l, h) ∧ prepare l.path destination h = (.ok (), h₁) ∧
      make source destination readOnly h = attach l.path destination readOnly h₁ := by
  have hout := make_outset source destination readOnly h
  generalize make source destination readOnly h = run at hout ⊢
  cases hout with
  | refused argument => exact .inl ⟨_, h, rfl, rfl, refl_of SameMounts h⟩
  | unresolved hl => exact .inl ⟨_, h, rfl, rfl, refl_of SameMounts h⟩
  | @unprepared l cause h₁ hl hp =>
    have hsame := SameMounts.keeps_prepare l.path destination h
    rw [hp] at hsame
    exact .inl ⟨_, h₁, rfl, rfl, hsame⟩
  | prepared hl hp => exact .inr ⟨_, _, hl, hp, rfl⟩

/-- What a bind did: it stopped before any mount call, or its steps ended in one of their ways. -/
theorem make_ending (source destination : Path) (readOnly : Bool) (h : Host) :
    ∃ r h' calls, make source destination readOnly h = (r, h') ∧ h'.calls = h.calls ++ calls ∧
      ((calls = [] ∧ h'.mounts = h.mounts ∧ ∃ e, r = .error e ∧ e.isMount = false) ∨
        ∃ l, (Host.resolve source h).1 = .ok l ∧
          Ending l.path destination readOnly h.mounts r calls h'.mounts) := by
  rcases make_cases source destination readOnly h with
    ⟨e, h', hm, he, hsame⟩ | ⟨l, h₁, hl, hp, hm⟩
  · exact ⟨_, h', [], hm, by simp [hsame.2], .inl ⟨rfl, hsame.1, e, rfl, he⟩⟩
  · have hsame := SameMounts.keeps_prepare l.path destination h
    rw [hp] at hsame
    obtain ⟨r, h', calls, ha, hcalls, hend⟩ :=
      attach_ending l.path readOnly h₁ (hasNul_eq_false_of_prepare hp)
    rw [hsame.1] at hend
    exact ⟨r, h', calls, hm.trans ha, by rw [hcalls, hsame.2], .inr ⟨l, by rw [hl], hend⟩⟩

section

variable {source destination : Path} {readOnly : Bool} {ms ms' : List Mount} {calls : List MountCall}

theorem Ending.of_ok (hend : Ending source destination readOnly ms (.ok ()) calls ms') :
    calls = (steps readOnly).map (succeeded source destination) ∧
      ms' = ⟨source, destination, true, readOnly⟩ :: ms := by
  cases hend
  exact ⟨rfl, rfl⟩

theorem steps_split {before later : List BindStep} {step : BindStep}
    (hs : steps readOnly = .bind :: before ++ step :: later) :
    before = [] ∧ step = .makePrivate ∨ before = [.makePrivate] ∧ step = .remountReadOnly := by
  rcases before with _ | ⟨s, _ | ⟨s', before⟩⟩ <;> cases readOnly <;> simp_all [steps]

theorem ne_bind_of_steps {before later : List BindStep} {step : BindStep}
    (hs : steps readOnly = .bind :: before ++ step :: later) : step ≠ .bind := by
  rcases steps_split hs with ⟨-, rfl⟩ | ⟨-, rfl⟩ <;> decide

theorem Ending.of_error {e : Error} (hend : Ending source destination readOnly ms (.error e) calls ms') :
    ∃ step before later errno cleanup, e = .mount step source destination (.os errno) ∧
      steps readOnly = before ++ step :: later ∧
      calls = before.map (succeeded source destination) ++
        failed source destination step errno :: cleanup ∧
      (step = .bind → cleanup = [] ∧ ms' = ms) ∧
      (step ≠ .bind → ∃ errno', cleanup = [⟨.detach, destination, errno'⟩] ∧
        (errno' = none → ms' = ms)) := by
  cases hend with
  | refused errno =>
    exact ⟨.bind, [], _, errno, [], rfl, rfl, rfl, fun _ => ⟨rfl, rfl⟩, fun hb => absurd rfl hb⟩
  | undone before later step errno hs =>
    exact ⟨step, .bind :: before, later, errno, _, rfl, hs, rfl,
      fun hb => absurd hb (ne_bind_of_steps hs), fun _ => ⟨none, rfl, fun _ => rfl⟩⟩
  | leftBehind before later step errno errno' hs =>
    exact ⟨step, .bind :: before, later, errno, _, rfl, hs, rfl,
      fun hb => absurd hb (ne_bind_of_steps hs), fun _ => ⟨some errno', rfl, fun hc => by cases hc⟩⟩

end

theorem failed_notMem_succeeded (source destination : Path) (ss : List BindStep) (s : BindStep)
    (e : Errno) : failed source destination s e ∉ ss.map (succeeded source destination) := by
  simp [failed, succeeded]

/-- A bind succeeds exactly if all its steps did, and then one mount more is there, as asked for. The
error of a step is that of the first that failed; no other call follows it than the detach, and unless
that fails too the mounts are as before. No other error comes after a mount call. -/
theorem make_correct (source destination : Path) (readOnly : Bool) (h : Host) :
    ∃ r h' calls, make source destination readOnly h = (r, h') ∧ h'.calls = h.calls ++ calls ∧
      (r = .ok () ↔ ∃ l, (Host.resolve source h).1 = .ok l ∧
        calls = (steps readOnly).map (succeeded l.path destination)) ∧
      (r = .ok () → ∃ l, (Host.resolve source h).1 = .ok l ∧
        h'.mounts = ⟨l.path, destination, true, readOnly⟩ :: h.mounts) ∧
      (∀ step source' destination' cause, r = .error (.mount step source' destination' cause) →
        ∃ l before later e cleanup, (Host.resolve source h).1 = .ok l ∧ source' = l.path ∧
          destination' = destination ∧ cause = .os e ∧ steps readOnly = before ++ step :: later ∧
          calls = before.map (succeeded l.path destination) ++
            failed l.path destination step e :: cleanup ∧
          (step = .bind → cleanup = [] ∧ h'.mounts = h.mounts) ∧
          (step ≠ .bind → ∃ errno, cleanup = [⟨.detach, destination, errno⟩] ∧
            (errno = none → h'.mounts = h.mounts))) ∧
      (∀ e, r = .error e → e.isMount = false → calls = [] ∧ h'.mounts = h.mounts) := by
  obtain ⟨r, h', calls, hm, hcalls, hend⟩ := make_ending source destination readOnly h
  refine ⟨r, h', calls, hm, hcalls, ?_⟩
  rcases hend with ⟨rfl, hms, e, rfl, he⟩ | ⟨l, hl, hend⟩
  · refine ⟨⟨fun hr => (by cases hr), ?_⟩, fun hr => (by cases hr), ?_, fun _ _ _ => ⟨rfl, hms⟩⟩
    · intro hok
      obtain ⟨l, -, hc⟩ := hok
      simp [steps] at hc
    · intro step source' destination' cause hr
      cases hr
      cases he
  · cases r with
    | ok u =>
      obtain ⟨hc, hms⟩ := hend.of_ok
      exact ⟨⟨fun _ => ⟨l, hl, hc⟩, fun _ => rfl⟩, fun _ => ⟨l, hl, hms⟩,
        fun _ _ _ _ hr => (by cases hr), fun _ hr => (by cases hr)⟩
    | error e =>
      obtain ⟨step, before, later, errno, cleanup, rfl, hs, hc, hfirst, hlater⟩ := hend.of_error
      refine ⟨⟨fun hr => (by cases hr), ?_⟩, fun hr => (by cases hr), ?_, ?_⟩
      · intro hok
        obtain ⟨l', hl', hc'⟩ := hok
        have hll : l' = l := Except.ok.inj (hl'.symm.trans hl)
        have hmem : failed l.path destination step errno ∈ calls := by simp [hc]
        rw [hc', hll] at hmem
        exact absurd hmem (failed_notMem_succeeded _ _ _ _ _)
      · intro step' source' destination' cause hr
        cases hr
        exact ⟨l, before, later, errno, cleanup, hl, rfl, rfl, rfl, hs, hc, hfirst, hlater⟩
      · intro e hr he
        cases hr
        cases he

end Bind

end SandboxMounts
