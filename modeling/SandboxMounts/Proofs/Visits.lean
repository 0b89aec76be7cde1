import SandboxMounts.Proofs.Operations

/-!
A teardown as visits to its containers, one after another. A visit releases the container's host mounts
and then sees to its share; the report says of every visit what became of both.
-/

set_option autoImplicit false

namespace SandboxMounts.Rootfs

/-- What becomes of a container's share from `h` to another host; nothing where it has none. Only under
proper names is there a call to be made. -/
inductive ShareEnd (sharedDir : Path) (sandbox : String) (c : Container (StateM Host)) (h : Host) :
    Option (Except Error Unit) → Host → Prop
  | absent (hf : c.fsType ≠ "") : ShareEnd sharedDir sandbox c h none h
  | noSandbox (hf : c.fsType = "") (hs : isSingleName sandbox = false) :
    ShareEnd sharedDir sandbox c h (some (.error (.emptyArgument "sandbox id"))) h
  | noContainer (hf : c.fsType = "") (hs : isSingleName sandbox = true)
    (hc : isSingleName c.id = false) :
    ShareEnd sharedDir sandbox c h (some (.error (.emptyArgument "container id"))) h
  | detached (hf : c.fsType = "") (hs : isSingleName sandbox = true) (hc : isSingleName c.id = true)
    {h' : Host} (hd : Host.issue .detach (target sharedDir sandbox c.id) h = (.ok (), h')) :
    ShareEnd sharedDir sandbox c h (some (.ok ())) h'
  | stuck (hf : c.fsType = "") (hs : isSingleName sandbox = true) (hc : isSingleName c.id = true)
    {h' : Host} {cause : IoError}
    (hd : Host.issue .detach (target sharedDir sandbox c.id) h = (.error cause, h')) :
    ShareEnd sharedDir sandbox c h
      (some (.error (.unmount (target sharedDir sandbox c.id) cause))) h'

/-- A visit to a container: the host on arrival, between release and share, and on leaving. -/
structure Visit where
  container : Container (StateM Host)
  before : Host
  released : Except Error Unit
  between : Host
  share : Option (Except Error Unit)
  after : Host

namespace Visit

structure Happens (sharedDir : Path) (sandbox : String) (v : Visit) : Prop where
  release : v.container.releaseHostMounts v.before = (v.released, v.between)
  share : ShareEnd sharedDir sandbox v.container v.between v.share v.after

def detached (v : Visit) : List String :=
  match v.share with
  | some (.ok ()) => [v.container.id]
  | _ => []

def releaseFailure (v : Visit) : List Failure :=
  match v.released with
  | .ok () => []
  | .error e => [⟨v.container.id, .hostMounts, e⟩]

def shareFailure (v : Visit) : List Failure :=
  match v.share with
  | some (.error e) => [⟨v.container.id, .rootfs, e⟩]
  | _ => []

def failures (v : Visit) : List Failure := v.releaseFailure ++ v.shareFailure

def report (v : Visit) : Report := ⟨v.detached, v.failures⟩

end Visit

inductive Visited (sharedDir : Path) (sandbox : String) : Host → List Visit → Host → Prop
  | nil {h : Host} : Visited sharedDir sandbox h [] h
  | cons {v : Visit} {vs : List Visit} {h : Host} (hv : v.Happens sharedDir sandbox)
    (hvs : Visited sharedDir sandbox v.after vs h) : Visited sharedDir sandbox v.before (v :: vs) h

section

variable {sharedDir : Path} {sandbox : String} {c : Container (StateM Host)}
  {cs : List (Container (StateM Host))} {vs : List Visit} {v : Visit} {h h' : Host}

theorem requireNames_ok {container : String} :
    requireNames sandbox container = .ok () ↔
      isSingleName sandbox = true ∧ isSingleName container = true := by
  unfold requireNames
  cases isSingleName sandbox <;> cases isSingleName container <;> simp

theorem unshare_end (sharedDir : Path) (sandbox : String) (h : Host) (hf : c.fsType = "") :
    ∃ r h', unshare sharedDir sandbox c.id h = (r, h') ∧
      ShareEnd sharedDir sandbox c h (some r) h' := by
  cases hs : isSingleName sandbox with
  | false =>
    have hr : requireNames sandbox c.id = .error (.emptyArgument "sandbox id") := by
      simp [requireNames, hs]
    exact ⟨_, h, unshare_of_error sharedDir h hr, .noSandbox hf hs⟩
  | true =>
    cases hc : isSingleName c.id with
    | false =>
      have hr : requireNames sandbox c.id = .error (.emptyArgument "container id") := by
        simp [requireNames, hs, hc]
      exact ⟨_, h, unshare_of_error sharedDir h hr, .noContainer hf hs hc⟩
    | true =>
      rw [unshare_of_ok sharedDir h (requireNames_ok.2 ⟨hs, hc⟩)]
      obtain ⟨r, h', hd⟩ : ∃ r h', Host.issue .detach (target sharedDir sandbox c.id) h = (r, h') :=
        ⟨_, _, rfl⟩
      cases r with
      | ok u => exact ⟨_, h', Effect.orFail_of_ok hd, .detached hf hs hc hd⟩
      | error cause => exact ⟨_, h', Effect.orFail_of_error hd, .stuck hf hs hc hd⟩

theorem tearDown_visit (sharedDir : Path) (sandbox : String) (c : Container (StateM Host)) (h : Host) :
    ∃ v : Visit, v.container = c ∧ v.before = h ∧ v.Happens sharedDir sandbox ∧
      tearDown sharedDir sandbox c h = (v.report, v.after) := by
  obtain ⟨released, between, hrel⟩ : ∃ r h', c.releaseHostMounts h = (r, h') := ⟨_, _, rfl⟩
  by_cases hf : c.fsType = ""
  · obtain ⟨r, after, hun, hend⟩ :=
      unshare_end sharedDir sandbox between hf
    refine ⟨⟨c, h, released, between, some r, after⟩, rfl, rfl, ⟨hrel, hend⟩, ?_⟩
    rw [tearDown_apply, hrel]
    simp only [hf, if_true, hun]
    cases released <;> cases r <;> rfl
  · refine ⟨⟨c, h, released, between, none, between⟩, rfl, rfl, ⟨hrel, .absent hf⟩, ?_⟩
    rw [tearDown_apply, hrel]
    simp only [hf, if_false]
    cases released <;> rfl

theorem tearDownAll_visits (sharedDir : Path) (sandbox : String)
    (cs : List (Container (StateM Host))) (h : Host) :
    ∃ vs h', vs.map Visit.container = cs ∧ Visited sharedDir sandbox h vs h' ∧
      tearDownAll sharedDir sandbox cs h =
        (⟨vs.flatMap Visit.detached, vs.flatMap Visit.failures⟩, h') := by
  induction cs generalizing h with
  | nil => exact ⟨[], h, rfl, .nil, rfl⟩
  | cons c cs ih =>
    obtain ⟨v, rfl, rfl, hv, htear⟩ := tearDown_visit sharedDir sandbox c h
    obtain ⟨vs, h', rfl, hvs, hall⟩ := ih v.after
    refine ⟨v :: vs, h', rfl, .cons hv hvs, ?_⟩
    change (Report.append (tearDown sharedDir sandbox v.container v.before).1
        (tearDownAll sharedDir sandbox (vs.map Visit.container)
          (tearDown sharedDir sandbox v.container v.before).2).1,
      (tearDownAll sharedDir sandbox (vs.map Visit.container)
        (tearDown sharedDir sandbox v.container v.before).2).2) = _
    rw [htear, hall]
    rfl

namespace ShareEnd

variable {r : Option (Except Error Unit)} (hend : ShareEnd sharedDir sandbox c h r h')
include hend

theorem ok_iff :
    r = some (.ok ()) ↔ c.fsType = "" ∧ isSingleName sandbox ∧ isSingleName c.id ∧
      (Host.issue .detach (target sharedDir sandbox c.id) h).1 = .ok () := by
  cases hend with
  | absent hf => simp [hf]
  | noSandbox hf hs => simp [hs]
  | noContainer hf hs hc => simp [hc]
  | detached hf hs hc hd => simp [hf, hs, hc, hd]
  | stuck hf hs hc hd => simp [hd]

theorem error_iff {e : Error} :
    r = some (.error e) ↔ c.fsType = "" ∧
      (isSingleName sandbox = false ∧ e = .emptyArgument "sandbox id" ∨
        isSingleName sandbox ∧ isSingleName c.id = false ∧ e = .emptyArgument "container id" ∨
        isSingleName sandbox ∧ isSingleName c.id ∧ ∃ cause,
          (Host.issue .detach (target sharedDir sandbox c.id) h).1 = .error cause ∧
            e = .unmount (target sharedDir sandbox c.id) cause) := by
  cases hend with
  | absent hf => simp [hf]
  | noSandbox hf hs => simp [hf, hs, @eq_comm _ e]
  | noContainer hf hs hc => simp [hf, hs, hc, @eq_comm _ e]
  | detached hf hs hc hd => simp [hs, hc, hd]
  | stuck hf hs hc hd => simp [hf, hs, hc, hd, @eq_comm _ e]

theorem idle (hi : ¬(c.fsType = "" ∧ isSingleName sandbox ∧ isSingleName c.id)) : h' = h := by
  cases hend with
  | absent | noSandbox | noContainer => rfl
  | detached hf hs hc | stuck hf hs hc => exact absurd ⟨hf, hs, hc⟩ hi

theorem isSome_iff : r.isSome ↔ c.fsType = "" := by
  cases hend with
  | absent hf => simp [hf]
  | noSandbox hf | noContainer hf | detached hf | stuck hf => simp [hf]

end ShareEnd

namespace Visit

theorem mem_detached {id : String} :
    id ∈ v.detached ↔ id = v.container.id ∧ v.share = some (.ok ()) := by
  obtain ⟨c, before, released, between, share, after⟩ := v
  rcases share with _ | e | ⟨⟩ <;> simp [detached]

theorem mem_failures {f : Failure} :
    f ∈ v.failures ↔ f.container = v.container.id ∧
      (f.part = .hostMounts ∧ v.released = .error f.error ∨
        f.part = .rootfs ∧ v.share = some (.error f.error)) := by
  obtain ⟨c, before, released, between, share, after⟩ := v
  obtain ⟨id, part, e⟩ := f
  rcases released with e' | ⟨⟩ <;> rcases share with _ | e'' | ⟨⟩ <;>
    simp [failures, releaseFailure, shareFailure, @eq_comm _ e, and_or_left]

theorem share_counts (v : Visit) :
    v.detached.length + v.failures.countP (·.part = .rootfs) = v.share.isSome.toNat := by
  obtain ⟨c, before, released, between, share, after⟩ := v
  rcases released with e | ⟨⟩ <;> rcases share with _ | e | ⟨⟩ <;> rfl

theorem failures_eq_nil (v : Visit) :
    v.failures = [] ↔ v.released = .ok () ∧ ∀ e, v.share ≠ some (.error e) := by
  obtain ⟨c, before, released, between, share, after⟩ := v
  rcases released with e | ⟨⟩ <;> rcases share with _ | e | ⟨⟩ <;>
    simp [failures, releaseFailure, shareFailure]

end Visit

theorem Visited.happens (hvs : Visited sharedDir sandbox h vs h') :
    ∀ v ∈ vs, v.Happens sharedDir sandbox := by
  induction hvs with
  | nil => simp
  | cons hv _ ih => exact List.forall_mem_cons.2 ⟨hv, ih⟩

theorem Visited.share_counts (hvs : Visited sharedDir sandbox h vs h') :
    (vs.flatMap Visit.detached).length + (vs.flatMap Visit.failures).countP (·.part = .rootfs) =
      (vs.map Visit.container).countP (·.fsType = "") := by
  induction hvs with
  | nil => rfl
  | @cons v vs h hv _ ih =>
    have hone := v.share_counts
    have hsome : v.share.isSome.toNat = if v.container.fsType = "" then 1 else 0 := by
      by_cases hf : v.container.fsType = ""
      · rw [hv.share.isSome_iff.2 hf, if_pos hf]
        rfl
      · rw [Bool.eq_false_iff.2 (mt hv.share.isSome_iff.1 hf), if_neg hf]
        rfl
    simp only [List.flatMap_cons, List.length_append, List.countP_append, List.map_cons,
      List.countP_cons, decide_eq_true_eq] at ih ⊢
    omega

/-- Each container is visited once and in order, whatever fails; the report tells of each visit in turn
whether the share was given up, and every failure with the error of its own step. -/
theorem tearDownAll_correct (sharedDir : Path) (sandbox : String)
    (cs : List (Container (StateM Host))) (h : Host) :
    ∃ vs report h', tearDownAll sharedDir sandbox cs h = (report, h') ∧
      vs.map Visit.container = cs ∧ Visited sharedDir sandbox h vs h' ∧
      report.detached = vs.flatMap Visit.detached ∧ report.failures = vs.flatMap Visit.failures ∧
      (∀ v ∈ vs,
        let detach := (Host.issue .detach (target sharedDir sandbox v.container.id) v.between).1
        (v.container.id ∈ v.detached ↔ v.container.fsType = "" ∧ isSingleName sandbox ∧
          isSingleName v.container.id ∧ detach = .ok ()) ∧
        (∀ e, ⟨v.container.id, .rootfs, e⟩ ∈ v.failures ↔ v.container.fsType = "" ∧
          (isSingleName sandbox = false ∧ e = .emptyArgument "sandbox id" ∨
            isSingleName sandbox ∧ isSingleName v.container.id = false ∧
              e = .emptyArgument "container id" ∨
            isSingleName sandbox ∧ isSingleName v.container.id ∧ ∃ cause, detach = .error cause ∧
              e = .unmount (target sharedDir sandbox v.container.id) cause)) ∧
        (∀ e, ⟨v.container.id, .hostMounts, e⟩ ∈ v.failures ↔
          (v.container.releaseHostMounts v.before).1 = .error e) ∧
        (¬(v.container.fsType = "" ∧ isSingleName sandbox ∧ isSingleName v.container.id) →
          v.after = v.between)) ∧
      report.detached.length + report.failures.countP (·.part = .rootfs) =
        cs.countP (·.fsType = "") ∧
      (report.succeeded ↔ ∀ v ∈ vs, v.released = .ok () ∧ ∀ e, v.share ≠ some (.error e)) := by
  obtain ⟨vs, h', rfl, hvs, hall⟩ := tearDownAll_visits sharedDir sandbox cs h
  refine ⟨vs, _, h', hall, rfl, hvs, rfl, rfl, fun v hmem => ?_, hvs.share_counts, ?_⟩
  · have hv := hvs.happens v hmem
    refine ⟨?_, fun e => ?_, fun e => ?_, hv.share.idle⟩
    · rw [← hv.share.ok_iff, Visit.mem_detached]
      simp
    · rw [← hv.share.error_iff, Visit.mem_failures]
      simp
    · rw [hv.release, Visit.mem_failures]
      simp
  · simp only [Report.succeeded, List.isEmpty_iff, List.flatMap_eq_nil_iff, Visit.failures_eq_nil]

end

end SandboxMounts.Rootfs
