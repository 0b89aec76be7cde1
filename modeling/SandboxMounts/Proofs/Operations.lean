import SandboxMounts.Proofs.BindSequence
import SandboxMounts.Rootfs.Teardown

/-!
The operations of the library on mounts, and what each of them does to mounts and record: a bind runs
its steps, and every other operation only detaches.
-/

set_option autoImplicit false

namespace SandboxMounts

abbrev Detaches (h h' : Host) : Prop := Accounts (·.request = .detach) h h'

inductive Operation where
  | bind (source destination : Path) (readOnly : Bool)
  | bindContainer (m : ContainerMount)
  | share (sharedDir : Path) (sandbox container : String) (rootfs : Path) (readOnly : Bool)
  | detach (p : Path)
  | unshare (sharedDir : Path) (sandbox container : String)
  | tearDown (sharedDir : Path) (sandbox : String)
      (containers : List (Rootfs.Container (StateM Host)))

namespace Operation

/-- A teardown never fails itself; its report is left out here. -/
def run : Operation → Host → Except Error Unit × Host
  | .bind source destination readOnly, h => Bind.make source destination readOnly h
  | .bindContainer m, h => Bind.ofContainer m h
  | .share sharedDir sandbox container rootfs readOnly, h =>
    Rootfs.share sharedDir sandbox container rootfs readOnly h
  | .detach p, h => Bind.detach p h
  | .unshare sharedDir sandbox container, h => Rootfs.unshare sharedDir sandbox container h
  | .tearDown sharedDir sandbox containers, h =>
    (.ok (), (Rootfs.tearDownAll sharedDir sandbox containers h).2)

def asked? : Operation → Option (Path × Bool)
  | .bind _ destination readOnly => some (destination, readOnly)
  | .bindContainer m => some (.ofString m.destination, m.readOnly)
  | .share sharedDir sandbox container _ readOnly =>
    some (Rootfs.target sharedDir sandbox container, readOnly)
  | .detach _ | .unshare _ _ _ | .tearDown _ _ _ => none

/-- What a container does on its own release is up to it, but to the mounts it does no more than detach
some, by calls on record. -/
def ReleasesDetach : Operation → Prop
  | .tearDown _ _ containers => ∀ c ∈ containers, ∀ h, Detaches h (c.releaseHostMounts h).2
  | _ => True

end Operation

inductive Bind.Ran (t : Path) (readOnly : Bool) (ms : List Mount) :
    Except Error Unit → List MountCall → List Mount → Prop
  | stopped (e : Error) (he : e.isMount = false) : Bind.Ran t readOnly ms (.error e) [] ms
  | ended (source : Path) {r : Except Error Unit} {calls : List MountCall} {ms' : List Mount}
    (hend : Bind.Ending source t readOnly ms r calls ms') : Bind.Ran t readOnly ms r calls ms'

theorem Bind.make_ran (source t : Path) (readOnly : Bool) (h : Host) :
    ∃ r h' calls, make source t readOnly h = (r, h') ∧ h'.calls = h.calls ++ calls ∧
      Ran t readOnly h.mounts r calls h'.mounts := by
  obtain ⟨r, h', calls, hm, hcalls, hend⟩ := make_ending source t readOnly h
  refine ⟨r, h', calls, hm, hcalls, ?_⟩
  rcases hend with ⟨rfl, hms, e, rfl, he⟩ | ⟨l, -, hend⟩
  · rw [hms]
    exact .stopped e he
  · exact .ended l.path hend

namespace Rootfs

theorem isMount_of_requireNames {sandbox container : String} {e : Error}
    (hr : requireNames sandbox container = .error e) : e.isMount = false := by
  unfold requireNames at hr
  split at hr
  · cases hr
    rfl
  · split at hr <;> cases hr
    rfl

section

variable {sandbox container : String} (sharedDir rootfs : Path) (readOnly : Bool) (h : Host)

theorem share_of_error {e : Error} (hr : requireNames sandbox container = .error e) :
    share sharedDir sandbox container rootfs readOnly h = (.error e, h) := by
  unfold share
  rw [hr]
  rfl

theorem share_of_ok (hr : requireNames sandbox container = .ok ()) :
    share sharedDir sandbox container rootfs readOnly h =
      Bind.make rootfs (target sharedDir sandbox container) readOnly h := by
  unfold share
  rw [hr]
  rfl

theorem unshare_of_error {e : Error} (hr : requireNames sandbox container = .error e) :
    unshare sharedDir sandbox container h = (.error e, h) := by
  unfold unshare
  rw [hr]
  rfl

theorem unshare_of_ok (hr : requireNames sandbox container = .ok ()) :
    unshare sharedDir sandbox container h = Bind.detach (target sharedDir sandbox container) h := by
  unfold unshare
  rw [hr]
  rfl

end

end Rootfs

theorem Operation.run_asked {o : Operation} {t : Path} {readOnly : Bool}
    (ha : o.asked? = some (t, readOnly)) (h : Host) :
    ∃ r h' calls, o.run h = (r, h') ∧ h'.calls = h.calls ++ calls ∧
      Bind.Ran t readOnly h.mounts r calls h'.mounts := by
  cases o with
  | bind source =>
    cases ha
    exact Bind.make_ran source t readOnly h
  | bindContainer m =>
    cases ha
    exact Bind.make_ran (.ofString m.source) (.ofString m.destination) m.readOnly h
  | share sharedDir sandbox container rootfs =>
    cases ha
    simp only [Operation.run]
    cases hr : Rootfs.requireNames sandbox container with
    | error e =>
      rw [Rootfs.share_of_error sharedDir rootfs readOnly h hr]
      exact ⟨.error e, h, [], rfl, by simp, .stopped e (Rootfs.isMount_of_requireNames hr)⟩
    | ok u =>
      rw [Rootfs.share_of_ok sharedDir rootfs readOnly h hr]
      exact Bind.make_ran rootfs (Rootfs.target sharedDir sandbox container) readOnly h
  | detach p => cases ha
  | unshare sharedDir sandbox container => cases ha
  | tearDown sharedDir sandbox containers => cases ha

theorem Bind.detach_detaches (p : Path) (h : Host) : Detaches h (Bind.detach p h).2 := by
  have hi : Detaches h (Host.issue .detach p h).2 := by
    cases hn : p.hasNul with
    | true =>
      rw [Host.issue_of_hasNul .detach h hn]
      exact refl_of Detaches h
    | false =>
      obtain ⟨errno, h', hi, hcalls, hafter⟩ := Host.issue_recorded .detach h hn
      rw [hi]
      exact ⟨[⟨.detach, p, errno⟩], hcalls, by simp, by simp [hafter]⟩
  unfold detach
  rw [Effect.orFail_snd]
  exact hi

theorem Rootfs.unshare_detaches (sharedDir : Path) (sandbox container : String) (h : Host) :
    Detaches h (unshare sharedDir sandbox container h).2 := by
  cases hr : requireNames sandbox container with
  | error e =>
    rw [unshare_of_error sharedDir h hr]
    exact refl_of Detaches h
  | ok u =>
    rw [unshare_of_ok sharedDir h hr]
    exact Bind.detach_detaches _ h

theorem Rootfs.tearDown_apply (sharedDir : Path) (sandbox : String) (c : Container (StateM Host))
    (h : Host) :
    tearDown sharedDir sandbox c h =
      let (released, between) := c.releaseHostMounts h
      let (outcome, after) := unshare sharedDir sandbox c.id between
      if c.fsType = "" then
        ((Report.ofRelease c.id released).append (.ofUnshare c.id outcome), after)
      else (.ofRelease c.id released, between) := by
  unfold tearDown
  split <;> rfl

theorem Rootfs.tearDown_detaches (sharedDir : Path) (sandbox : String) {c : Container (StateM Host)}
    (hc : ∀ h, Detaches h (c.releaseHostMounts h).2) (h : Host) :
    Detaches h (tearDown sharedDir sandbox c h).2 := by
  rw [tearDown_apply]
  by_cases hf : c.fsType = ""
  · simp only [hf, if_true]
    exact trans_of Detaches (hc h) (unshare_detaches sharedDir sandbox c.id _)
  · simp only [hf, if_false]
    exact hc h

theorem Rootfs.tearDownAll_detaches (sharedDir : Path) (sandbox : String)
    {cs : List (Container (StateM Host))}
    (hcs : ∀ c ∈ cs, ∀ h, Detaches h (c.releaseHostMounts h).2) (h : Host) :
    Detaches h (tearDownAll sharedDir sandbox cs h).2 := by
  induction cs generalizing h with
  | nil => exact refl_of Detaches h
  | cons c cs ih =>
    have hc := tearDown_detaches sharedDir sandbox (hcs c List.mem_cons_self) h
    have hrest := ih (fun c' hc' => hcs c' (List.mem_cons_of_mem c hc'))
      (tearDown sharedDir sandbox c h).2
    exact trans_of Detaches hc hrest

theorem Operation.run_unasked {o : Operation} (ha : o.asked? = none) (ho : o.ReleasesDetach)
    (h : Host) : Detaches h (o.run h).2 := by
  cases o with
  | bind source destination readOnly => cases ha
  | bindContainer m => cases ha
  | share sharedDir sandbox container rootfs readOnly => cases ha
  | detach p => exact Bind.detach_detaches p h
  | unshare sharedDir sandbox container => exact Rootfs.unshare_detaches sharedDir sandbox container h
  | tearDown sharedDir sandbox containers => exact Rootfs.tearDownAll_detaches sharedDir sandbox ho h

end SandboxMounts
