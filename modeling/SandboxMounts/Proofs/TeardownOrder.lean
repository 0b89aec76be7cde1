import SandboxMounts.Proofs.Isolation
import SandboxMounts.Proofs.Looks

/-!
The order of a teardown. Taking mounts away at different targets commutes, and nothing that is done for
one container is seen by another; so in whatever order the containers come, each ends as it would by
itself.
-/

set_option autoImplicit false

namespace SandboxMounts

def takeNewest (ms : List Mount) (p : Path) : List Mount := ms.eraseP (·.target = p)

def takeAll (ps : List Path) (ms : List Mount) : List Mount := ps.foldl takeNewest ms

def Host.mountsAt (h : Host) (p : Path) : List Mount := h.mounts.filter (·.target = p)

section

variable {p q : Path} {ps qs : List Path} {ms : List Mount} {h : Host}

theorem takeNewest_comm (ms : List Mount) (p q : Path) :
    takeNewest (takeNewest ms p) q = takeNewest (takeNewest ms q) p := by
  by_cases hne : p = q
  · rw [hne]
  · refine List.eraseP_comm fun m _ => ?_
    by_cases hm : m.target = p
    · exact .inr (by simpa [hm] using hne)
    · exact .inl (by simpa using hm)

theorem takeAll_perm (hperm : ps.Perm qs) (ms : List Mount) : takeAll ps ms = takeAll qs ms :=
  hperm.foldl_eq' (fun p _ q _ ms => takeNewest_comm ms p q) ms

theorem takeAll_append (ps qs : List Path) (ms : List Mount) :
    takeAll (ps ++ qs) ms = takeAll qs (takeAll ps ms) := List.foldl_append

theorem takeNewest_eq (ms : List Mount) (p : Path) :
    takeNewest ms p = (Host.editNewest? p (fun _ => []) ms).getD ms := by
  induction ms with
  | nil => rfl
  | cons m ms ih =>
    rw [takeNewest, List.eraseP_cons, Host.editNewest?]
    by_cases hm : m.target = p
    · simp [hm]
    · have hrest : ms.eraseP (·.target = p) = (Host.editNewest? p (fun _ => []) ms).getD ms := ih
      rw [if_neg hm, decide_eq_false hm, cond_false, hrest]
      cases Host.editNewest? p (fun _ => []) ms <;> rfl

theorem takeNewest_filter (hne : p ≠ q) (ms : List Mount) :
    (takeNewest ms p).filter (·.target = q) = ms.filter (·.target = q) := by
  rw [takeNewest_eq]
  cases he : Host.editNewest? p (fun _ => []) ms with
  | none => rfl
  | some ms' => exact Host.editNewest?_filter hne he

theorem takeAll_filter (hq : q ∉ ps) (ms : List Mount) :
    (takeAll ps ms).filter (·.target = q) = ms.filter (·.target = q) := by
  induction ps generalizing ms with
  | nil => rfl
  | cons p ps ih =>
    obtain ⟨hne, hq⟩ := not_or.1 (mt List.mem_cons.2 hq)
    exact (ih hq (takeNewest ms p)).trans (takeNewest_filter (Ne.symm hne) ms)

/-- A detach that succeeds takes the newest mount at its target, and one that fails takes none. -/
theorem Host.issue_detach_mounts (p : Path) (h : Host) :
    (issue .detach p h).2.mounts =
      if (issue .detach p h).1 = .ok () then takeNewest h.mounts p else h.mounts := by
  cases hn : p.hasNul with
  | true => rw [issue_of_hasNul .detach h hn, if_neg nofun]
  | false =>
    obtain ⟨errno, h', hi, -, hafter⟩ := issue_recorded .detach h hn
    rw [hi]
    cases errno with
    | some e =>
      rw [if_neg nofun]
      exact (Option.some.inj hafter).symm
    | none =>
      have he : editNewest? p (fun _ => []) h.mounts = some h'.mounts := hafter
      rw [takeNewest_eq, he]
      rfl

end

/-! ### Faults that do not wear out -/

namespace Host

variable {p : Path} {h h' h₁ h₂ : Host}

theorem editNewest?_eq_none {f : Mount → List Mount} {ms : List Mount} :
    editNewest? p f ms = none ↔ ms.filter (·.target = p) = [] := by
  induction ms with
  | nil => simp [editNewest?]
  | cons m ms ih =>
    rw [editNewest?, List.filter_cons]
    split
    · simp [*]
    · simp [*, Option.map_eq_none_iff]

theorem issue_detach_fst (p : Path) (h : Host) :
    (issue .detach p h).1 =
      if p.hasNul then .error (.os .invalidArgument)
      else match useFault? .unmount p h.faults, h.statOf .followed p with
        | some (e, _), _ => .error (.os e)
        | none, .error e => .error (.os e)
        | none, .ok _ => if h.mountsAt p = [] then .error (.os .invalidArgument) else .ok () := by
  cases hn : p.hasNul with
  | true => rw [issue_of_hasNul .detach h hn, if_pos rfl]
  | false =>
    unfold issue
    rw [Effect.bind_of_ok (refuseNul_of_clean hn), if_neg nofun]
    cases hu : useFault? .unmount p h.faults with
    | some used =>
      have hmeet : meetFault MountRequest.detach.kind p h =
          (.error (.os used.1), { h with faults := used.2 }) := by
        unfold meetFault
        rw [MountRequest.kind, hu]
      rw [Effect.bind_of_error hmeet]
    | none =>
      have hmeet : meetFault MountRequest.detach.kind p h = (.ok (), h) := by
        unfold meetFault
        rw [MountRequest.kind, hu]
      rw [Effect.bind_of_ok hmeet, change, performIn, if_pos rfl]
      cases h.statOf .followed p with
      | error e => rfl
      | ok st =>
        by_cases hms : h.mountsAt p = []
        · have hnone : mountsAfter? .detach p h.mounts = none := editNewest?_eq_none.2 hms
          simp only [hnone, if_pos hms]
          rfl
        · obtain ⟨ms, hsome⟩ := Option.ne_none_iff_exists'.1 (mt editNewest?_eq_none.1 hms)
          have hsome : mountsAfter? .detach p h.mounts = some ms := hsome
          simp only [hsome, if_neg hms]
          rfl

def IsLasting (h : Host) : Prop := ∀ f ∈ h.faults, f.left = none

instance (h : Host) : Decidable h.IsLasting :=
  inferInstanceAs (Decidable (∀ f ∈ h.faults, f.left = none))

theorem useFault?_lasting {k : CallKind} {fs fs' : List Fault} {e : Errno}
    (hfs : ∀ f ∈ fs, f.left = none) (hu : useFault? k p fs = some (e, fs')) : fs' = fs := by
  induction fs generalizing fs' with
  | nil => cases hu
  | cons f fs ih =>
    obtain ⟨hf, hfs⟩ := List.forall_mem_cons.1 hfs
    rw [useFault?] at hu
    split at hu
    · obtain ⟨call, path, errno, left⟩ := f
      obtain rfl : left = none := hf
      cases hu
      rfl
    · obtain ⟨⟨e', fs''⟩, hrest, he⟩ := Option.map_eq_some_iff.1 hu
      cases he
      rw [ih hfs hrest]

/-- The files are as they were, and so are faults that do not wear out. -/
def SameWorld (h h' : Host) : Prop := h.SameFiles h' ∧ (h.IsLasting → h'.faults = h.faults)

instance : IsPreorder Host SameWorld where
  refl h := ⟨refl_of SameFiles h, fun _ => rfl⟩
  trans _ _ _ h₁ h₂ := by
    refine ⟨trans_of SameFiles h₁.1 h₂.1, fun hl => ?_⟩
    have hfaults := h₁.2 hl
    refine (h₂.2 ?_).trans hfaults
    rwa [IsLasting, hfaults]

theorem keeps_sameWorld (request : MountRequest) (p : Path) :
    Effect.Keeps SameWorld (issue request p) := by
  refine .issue (fun k p h => ?_) (fun h mounts => ?_) (fun h c => ?_) request p
  · unfold meetFault
    split
    · rename_i e faults hu
      exact ⟨⟨faults, h.mounts, h.calls, rfl⟩, fun hl => useFault?_lasting hl hu⟩
    · exact refl_of SameWorld h
  · exact ⟨⟨h.faults, mounts, h.calls, rfl⟩, fun _ => rfl⟩
  · exact ⟨⟨h.faults, h.mounts, h.calls ++ [c], rfl⟩, fun _ => rfl⟩

theorem SameWorld.issue_detach (hs₁ : h.SameWorld h₁) (hs₂ : h.SameWorld h₂) (hl : h.IsLasting)
    (hms : h₁.mountsAt p = h₂.mountsAt p) : (issue .detach p h₁).1 = (issue .detach p h₂).1 := by
  rw [issue_detach_fst, issue_detach_fst, hs₁.2 hl, hs₂.2 hl, hs₁.1.statOf, hs₂.1.statOf, hms]

end Host

namespace Rootfs

namespace Report

@[simp] theorem detached_append (r s : Report) :
    (r.append s).detached = r.detached ++ s.detached := rfl

@[simp] theorem detached_ofRelease (id : String) (r : Except Error Unit) :
    (ofRelease id r).detached = [] := by
  cases r <;> rfl

@[simp] theorem detached_ofUnshare_ok (id : String) (u : Unit) :
    (ofUnshare id (.ok u)).detached = [id] := rfl

@[simp] theorem detached_ofUnshare_error (id : String) (e : Error) :
    (ofUnshare id (.error e)).detached = [] := rfl

end Report

def Container.IsShared (c : Container (StateM Host)) (sandbox : String) : Prop :=
  c.fsType = "" ∧ requireNames sandbox c.id = .ok ()

def hostAfter (sharedDir : Path) (sandbox : String) (done : List (Container (StateM Host))) (h : Host) :
    Host :=
  (tearDownAll sharedDir sandbox done h).2

/-- In whatever order the containers come, what is done for one ends as if it were the first: its release
takes mounts from the container's own places only, and what the detach after it gives is a matter of the
mounts at its target. -/
structure ActsLocally (sharedDir : Path) (sandbox : String) (cs : List (Container (StateM Host)))
    (own : Container (StateM Host) → List Path) (h : Host) : Prop where
  released : ∀ done c rest, (done ++ c :: rest).Perm cs →
    (c.releaseHostMounts (hostAfter sharedDir sandbox done h)).1 = (c.releaseHostMounts h).1
  takes : ∀ done c rest, (done ++ c :: rest).Perm cs →
    (c.releaseHostMounts (hostAfter sharedDir sandbox done h)).2.mounts =
      takeAll (own c) (hostAfter sharedDir sandbox done h).mounts
  apart : ∀ c ∈ cs, ∀ d ∈ cs, d.IsShared sandbox → target sharedDir sandbox d.id ∉ own c
  detach : ∀ done c rest, (done ++ c :: rest).Perm cs → c.IsShared sandbox →
    let p := target sharedDir sandbox c.id
    let first := (c.releaseHostMounts h).2
    let later := (c.releaseHostMounts (hostAfter sharedDir sandbox done h)).2
    later.mountsAt p = first.mountsAt p →
      (Host.issue .detach p later).1 = (Host.issue .detach p first).1

section

variable {sharedDir : Path} {sandbox : String} {c : Container (StateM Host)}

theorem mem_of_perm {cs done rest : List (Container (StateM Host))}
    (hperm : (done ++ c :: rest).Perm cs) : c ∈ cs ∧ ∀ d ∈ done, d ∈ cs :=
  ⟨hperm.mem_iff.1 (List.mem_append_right done List.mem_cons_self),
    fun _ hd => hperm.mem_iff.1 (List.mem_append_left _ hd)⟩

theorem hostAfter_concat (done : List (Container (StateM Host))) (c : Container (StateM Host))
    (h : Host) :
    hostAfter sharedDir sandbox (done ++ [c]) h =
      (tearDown sharedDir sandbox c (hostAfter sharedDir sandbox done h)).2 := by
  induction done generalizing h with
  | nil => rfl
  | cons d done ih => exact ih (tearDown sharedDir sandbox d h).2

/-- Without a share to be taken back there is the release alone, and all else of the report is settled
before it. -/
theorem tearDown_of_not_shared (sharedDir : Path) (hc : ¬ c.IsShared sandbox) :
    ∃ others : Report, others.detached = [] ∧ ∀ h, tearDown sharedDir sandbox c h =
      ((Report.ofRelease c.id (c.releaseHostMounts h).1).append others,
        (c.releaseHostMounts h).2) := by
  by_cases hf : c.fsType = ""
  · cases hr : requireNames sandbox c.id with
    | ok u => exact absurd ⟨hf, hr⟩ hc
    | error e =>
      refine ⟨.ofUnshare c.id (.error e), rfl, fun h => ?_⟩
      rw [tearDown_apply]
      simp only [if_pos hf, unshare_of_error sharedDir _ hr]
      rfl
  · refine ⟨.empty, rfl, fun h => ?_⟩
    obtain ⟨released, between, hrel⟩ : ∃ r h', c.releaseHostMounts h = (r, h') := ⟨_, _, rfl⟩
    rw [tearDown_apply, hrel]
    simp only [if_neg hf]
    cases released <;> rfl

theorem tearDown_of_shared (sharedDir : Path) (hc : c.IsShared sandbox) (h : Host) :
    let detach := Host.issue .detach (target sharedDir sandbox c.id) (c.releaseHostMounts h).2
    tearDown sharedDir sandbox c h =
      ((Report.ofRelease c.id (c.releaseHostMounts h).1).append
        (.ofUnshare c.id (detach.1.mapError (.unmount (target sharedDir sandbox c.id)))),
        detach.2) := by
  obtain ⟨released, between, hrel⟩ : ∃ r h', c.releaseHostMounts h = (r, h') := ⟨_, _, rfl⟩
  obtain ⟨r, after, hd⟩ : ∃ r h',
      Host.issue .detach (target sharedDir sandbox c.id) between = (r, h') := ⟨_, _, rfl⟩
  rw [tearDown_apply, hrel]
  simp only [if_pos hc.1, unshare_of_ok sharedDir _ hc.2, Bind.detach, Call.orFail, hd]
  cases r <;> rfl

end

/-! ### Releases that act locally -/

/-- A release that only reports, or one that detaches at this place and at no other. -/
inductive Container.ReleasesAt (c : Container (StateM Host)) : Option Path → Prop
  | reports {r : Except Error Unit} (hr : c.releaseHostMounts = pure r) : c.ReleasesAt none
  | detaches {p : Path} (hp : c.releaseHostMounts = (Bind.detach p).run) : c.ReleasesAt (some p)

section

variable {sharedDir : Path} {sandbox : String} {cs done rest : List (Container (StateM Host))}
  {place : Container (StateM Host) → Option Path} {c : Container (StateM Host)} {p : Option Path}
  {q : Path}

theorem Container.ReleasesAt.sameWorld (hc : c.ReleasesAt p) (h : Host) :
    h.SameWorld (c.releaseHostMounts h).2 := by
  cases hc with
  | reports hr =>
    rw [hr]
    exact refl_of Host.SameWorld h
  | @detaches p hp =>
    rw [hp]
    exact Effect.Keeps.orFail (Host.keeps_sameWorld .detach p) h

theorem Container.ReleasesAt.elsewhere (hc : c.ReleasesAt p) (hq : p ≠ some q) (h : Host) :
    (c.releaseHostMounts h).2.mountsAt q = h.mountsAt q := by
  cases hc with
  | reports hr =>
    rw [hr]
    rfl
  | detaches hp =>
    rw [hp]
    exact Bind.detach_elsewhere (fun hpq => hq (congrArg some hpq)) h

theorem Container.ReleasesAt.ends {h h' : Host} (hc : c.ReleasesAt p)
    (hsame : ∀ q, p = some q → (Host.issue .detach q h').1 = (Host.issue .detach q h).1) :
    (c.releaseHostMounts h').1 = (c.releaseHostMounts h).1 ∧
      (c.releaseHostMounts h').2.mounts =
        takeAll (p.toList.filter fun q => (Host.issue .detach q h).1 = .ok ()) h'.mounts := by
  cases hc with
  | reports hr =>
    rw [hr]
    exact ⟨rfl, rfl⟩
  | @detaches p hp =>
    rw [hp]
    change (Bind.detach p h').1 = (Bind.detach p h).1 ∧ (Bind.detach p h').2.mounts = _
    rw [Bind.detach, Effect.orFail_fst, Effect.orFail_fst, Effect.orFail_snd,
      Host.issue_detach_mounts, hsame p rfl]
    refine ⟨rfl, ?_⟩
    split <;> simp [*, takeAll]

/-- What is done for a container is seen neither in the files nor at any place but its own. -/
theorem tearDown_apart (sharedDir : Path) (sandbox : String) (hc : c.ReleasesAt p) (h : Host) :
    h.SameWorld (tearDown sharedDir sandbox c h).2 ∧
      ∀ q, p ≠ some q → (c.IsShared sandbox → target sharedDir sandbox c.id ≠ q) →
        (tearDown sharedDir sandbox c h).2.mountsAt q = h.mountsAt q := by
  have hworld := hc.sameWorld h
  by_cases hshared : c.IsShared sandbox
  · rw [tearDown_of_shared sharedDir hshared]
    refine ⟨trans_of Host.SameWorld hworld (Host.keeps_sameWorld .detach _ _), fun q hq ht => ?_⟩
    refine Eq.trans ?_ (hc.elsewhere hq h)
    have helse := Bind.detach_elsewhere (ht hshared) (c.releaseHostMounts h).2
    rwa [Bind.detach, Effect.orFail_snd] at helse
  · obtain ⟨others, -, hreport⟩ := tearDown_of_not_shared sharedDir hshared
    rw [hreport]
    exact ⟨hworld, fun q hq _ => hc.elsewhere hq h⟩

theorem hostAfter_apart (hcs : ∀ c ∈ done, c.ReleasesAt (place c)) (h : Host) :
    h.SameWorld (hostAfter sharedDir sandbox done h) ∧
      ∀ q, (∀ c ∈ done, place c ≠ some q) →
        (∀ c ∈ done, c.IsShared sandbox → target sharedDir sandbox c.id ≠ q) →
        (hostAfter sharedDir sandbox done h).mountsAt q = h.mountsAt q := by
  induction done generalizing h with
  | nil => exact ⟨refl_of Host.SameWorld h, fun _ _ _ => rfl⟩
  | cons c done ih =>
    obtain ⟨hc, hcs⟩ := List.forall_mem_cons.1 hcs
    obtain ⟨hworld, hplaces⟩ := tearDown_apart sharedDir sandbox hc h
    obtain ⟨hworld', hplaces'⟩ := ih hcs (tearDown sharedDir sandbox c h).2
    refine ⟨trans_of Host.SameWorld hworld hworld', fun q hq ht => ?_⟩
    obtain ⟨hqc, hq⟩ := List.forall_mem_cons.1 hq
    obtain ⟨htc, ht⟩ := List.forall_mem_cons.1 ht
    exact (hplaces' q hq ht).trans (hplaces q hqc htc)

section

variable {h : Host} (hl : h.IsLasting) (hcs : ∀ c ∈ cs, c.ReleasesAt (place c))
  (hperm : (done ++ c :: rest).Perm cs)
include hcs hperm

theorem sameWorld_hostAfter : h.SameWorld (hostAfter sharedDir sandbox done h) :=
  (hostAfter_apart (fun d hd => hcs d ((mem_of_perm hperm).2 d hd)) h).1

variable (hplaces : (cs.filterMap place).Nodup)
  (htargets : ∀ c ∈ cs, ∀ d ∈ cs, d.IsShared sandbox →
    place c ≠ some (target sharedDir sandbox d.id))
include hl hplaces htargets

theorem issue_detach_hostAfter (hq : place c = some q) :
    (Host.issue .detach q (hostAfter sharedDir sandbox done h)).1 = (Host.issue .detach q h).1 := by
  obtain ⟨hc, hdone⟩ := mem_of_perm hperm
  have hnodup := (hperm.filterMap place).nodup_iff.2 hplaces
  rw [List.filterMap_append, List.filterMap_cons_some hq] at hnodup
  have hfresh : ∀ d ∈ done, place d ≠ some q := fun d hd hdq =>
    (List.nodup_append.1 hnodup).2.2 q (List.mem_filterMap.2 ⟨d, hd, hdq⟩) q List.mem_cons_self rfl
  obtain ⟨hworld, helse⟩ := hostAfter_apart (fun d hd => hcs d (hdone d hd)) h
  have hms := helse q hfresh fun d hd hs heq => htargets c hc d (hdone d hd) hs (heq ▸ hq)
  exact hworld.issue_detach (refl_of Host.SameWorld h) hl hms

theorem release_hostAfter :
    (c.releaseHostMounts (hostAfter sharedDir sandbox done h)).1 = (c.releaseHostMounts h).1 ∧
      (c.releaseHostMounts (hostAfter sharedDir sandbox done h)).2.mounts =
        takeAll ((place c).toList.filter fun q => (Host.issue .detach q h).1 = .ok ())
          (hostAfter sharedDir sandbox done h).mounts :=
  (hcs c (mem_of_perm hperm).1).ends fun _ hq =>
    issue_detach_hostAfter hl hcs hperm hplaces htargets hq

end

/-- Where no fault is used up, releases act locally that detach at places of their own, different from
each other and from where the shares are. -/
theorem actsLocally_of_releasesAt {h : Host} (hl : h.IsLasting)
    (hcs : ∀ c ∈ cs, c.ReleasesAt (place c)) (hplaces : (cs.filterMap place).Nodup)
    (htargets : ∀ c ∈ cs, ∀ d ∈ cs, d.IsShared sandbox →
      place c ≠ some (target sharedDir sandbox d.id)) :
    ActsLocally sharedDir sandbox cs
      (fun c => (place c).toList.filter fun q => (Host.issue .detach q h).1 = .ok ()) h where
  released _ _ _ hperm := (release_hostAfter hl hcs hperm hplaces htargets).1
  takes _ _ _ hperm := (release_hostAfter hl hcs hperm hplaces htargets).2
  apart c hc d hd hs hin := by
    have hq := Option.mem_toList.1 (List.mem_filter.1 hin).1
    exact htargets c hc d hd hs hq
  detach done c rest hperm _ := by
    intro p first later hms
    have hrel := hcs c (mem_of_perm hperm).1
    have hlater : h.SameWorld later :=
      trans_of Host.SameWorld (sameWorld_hostAfter hcs hperm) (hrel.sameWorld _)
    exact hlater.issue_detach (hrel.sameWorld h) hl hms

end

/-! ### One order and another -/

section

variable {sharedDir : Path} {sandbox : String} {cs ds done rest : List (Container (StateM Host))}
  {own : Container (StateM Host) → List Path} {c : Container (StateM Host)} {h : Host}

def placesOf (sharedDir : Path) (sandbox : String) (own : Container (StateM Host) → List Path)
    (h : Host) (c : Container (StateM Host)) : List Path :=
  own c ++ (tearDown sharedDir sandbox c h).1.detached.map (target sharedDir sandbox)

/-- What is done for one container ends as it would have at the start, if what is mounted at its target
is what was there then. -/
theorem ActsLocally.tearDown (hact : ActsLocally sharedDir sandbox cs own h)
    (hperm : (done ++ c :: rest).Perm cs)
    (hms : c.IsShared sandbox →
      (hostAfter sharedDir sandbox done h).mountsAt (target sharedDir sandbox c.id) =
        h.mountsAt (target sharedDir sandbox c.id)) :
    (Rootfs.tearDown sharedDir sandbox c (hostAfter sharedDir sandbox done h)).1 =
        (Rootfs.tearDown sharedDir sandbox c h).1 ∧
      (hostAfter sharedDir sandbox (done ++ [c]) h).mounts =
        takeAll (placesOf sharedDir sandbox own h c) (hostAfter sharedDir sandbox done h).mounts := by
  have hreleased := hact.released done c rest hperm
  have htakes := hact.takes done c rest hperm
  have hdetach := hact.detach done c rest hperm
  rw [hostAfter_concat]
  unfold placesOf
  generalize hostAfter sharedDir sandbox done h = h' at *
  by_cases hshared : c.IsShared sandbox
  · let p := target sharedDir sandbox c.id
    -- a release leaves what is mounted at the target, and so the detach finds the same in both runs
    have hsame : (c.releaseHostMounts h').2.mountsAt p = (c.releaseHostMounts h).2.mountsAt p := by
      have hstart := hact.takes [] c (done ++ rest) (List.perm_middle.symm.trans hperm)
      obtain ⟨hc, -⟩ := mem_of_perm hperm
      have hp := hact.apart c hc c hc hshared
      rw [Host.mountsAt, Host.mountsAt, htakes, takeAll_filter hp]
      refine (hms hshared).trans ?_
      rw [Host.mountsAt, ← takeAll_filter hp]
      exact congrArg _ hstart.symm
    replace hdetach := hdetach hshared hsame
    simp only [tearDown_of_shared sharedDir hshared, hreleased, hdetach]
    refine ⟨trivial, ?_⟩
    rw [Host.issue_detach_mounts, hdetach, htakes, takeAll_append]
    cases (Host.issue .detach (target sharedDir sandbox c.id) (c.releaseHostMounts h).2).1 with
    | error e => simp [Except.mapError, takeAll]
    | ok u => simp [Except.mapError, takeAll]
  · obtain ⟨others, hnone, hreport⟩ := tearDown_of_not_shared sharedDir hshared
    simp only [hreport, hreleased]
    refine ⟨trivial, ?_⟩
    simpa [hnone] using htakes

theorem mem_placesOf {p : Path} (hp : p ∈ placesOf sharedDir sandbox own h c) :
    p ∈ own c ∨ c.IsShared sandbox ∧ p = target sharedDir sandbox c.id := by
  refine (List.mem_append.1 hp).imp_right fun hp => ?_
  obtain ⟨id, hid, rfl⟩ := List.mem_map.1 hp
  by_cases hshared : c.IsShared sandbox
  · refine ⟨hshared, ?_⟩
    rw [tearDown_of_shared sharedDir hshared] at hid
    generalize Except.mapError _ _ = r at hid
    cases r with
    | error e => simp at hid
    | ok u =>
      have he : id = c.id := by simpa using hid
      rw [he]
  · obtain ⟨others, hnone, hreport⟩ := tearDown_of_not_shared sharedDir hshared
    rw [hreport] at hid
    simp [hnone] at hid

/-- By the containers that are still to come, after those that are done with. -/
theorem ActsLocally.tearDownAll (hact : ActsLocally sharedDir sandbox cs own h)
    (hperm : (done ++ ds).Perm cs)
    (hapart : ds.Pairwise fun c d => c.IsShared sandbox → d.IsShared sandbox →
      target sharedDir sandbox c.id ≠ target sharedDir sandbox d.id)
    (hms : ∀ d ∈ ds, d.IsShared sandbox →
      (hostAfter sharedDir sandbox done h).mountsAt (target sharedDir sandbox d.id) =
        h.mountsAt (target sharedDir sandbox d.id)) :
    (Rootfs.tearDownAll sharedDir sandbox ds (hostAfter sharedDir sandbox done h)).1 =
        ⟨ds.flatMap fun c => (Rootfs.tearDown sharedDir sandbox c h).1.detached,
          ds.flatMap fun c => (Rootfs.tearDown sharedDir sandbox c h).1.failures⟩ ∧
      (hostAfter sharedDir sandbox (done ++ ds) h).mounts =
        takeAll (ds.flatMap (placesOf sharedDir sandbox own h))
          (hostAfter sharedDir sandbox done h).mounts := by
  induction ds generalizing done with
  | nil => exact ⟨rfl, by rw [List.append_nil]; rfl⟩
  | cons d ds ih =>
    obtain ⟨hne, hapart⟩ := List.pairwise_cons.1 hapart
    obtain ⟨hmsd, hms⟩ := List.forall_mem_cons.1 hms
    obtain ⟨hreport, hafter⟩ := hact.tearDown hperm hmsd
    have hmem : ∀ c ∈ d :: ds, c ∈ cs := fun c hc =>
      hperm.mem_iff.1 (List.mem_append_right done hc)
    -- what is done for `d` leaves what is mounted at the targets still to come
    have hms' : ∀ c ∈ ds, c.IsShared sandbox →
        (hostAfter sharedDir sandbox (done ++ [d]) h).mountsAt (target sharedDir sandbox c.id) =
          h.mountsAt (target sharedDir sandbox c.id) := fun c hc hshared => by
      rw [Host.mountsAt, hafter, takeAll_filter]
      · exact hms c hc hshared
      · intro hp
        rcases mem_placesOf hp with hp | ⟨hd, hp⟩
        · exact hact.apart d (hmem d List.mem_cons_self) c (hmem c (List.mem_cons_of_mem d hc))
            hshared hp
        · exact hne c hc hd hshared hp.symm
    have hcut : done ++ d :: ds = done ++ [d] ++ ds := by simp
    obtain ⟨hrest, hmounts⟩ := ih (hcut ▸ hperm) hapart hms'
    constructor
    · change Report.append (Rootfs.tearDown sharedDir sandbox d (hostAfter sharedDir sandbox done h)).1
        (Rootfs.tearDownAll sharedDir sandbox ds
          (Rootfs.tearDown sharedDir sandbox d (hostAfter sharedDir sandbox done h)).2).1 = _
      rw [hreport, ← hostAfter_concat, hrest]
      rfl
    · rw [hcut, hmounts, hafter, ← takeAll_append]
      rfl

theorem ActsLocally.tearDownAll_start (hact : ActsLocally sharedDir sandbox cs own h)
    (hperm : ds.Perm cs)
    (hapart : ds.Pairwise fun c d => c.IsShared sandbox → d.IsShared sandbox →
      target sharedDir sandbox c.id ≠ target sharedDir sandbox d.id) :
    (Rootfs.tearDownAll sharedDir sandbox ds h).1 =
        ⟨ds.flatMap fun c => (Rootfs.tearDown sharedDir sandbox c h).1.detached,
          ds.flatMap fun c => (Rootfs.tearDown sharedDir sandbox c h).1.failures⟩ ∧
      (Rootfs.tearDownAll sharedDir sandbox ds h).2.mounts =
        takeAll (ds.flatMap (placesOf sharedDir sandbox own h)) h.mounts := by
  have hstart : ([] ++ ds).Perm cs := hperm
  exact hact.tearDownAll hstart hapart fun _ _ _ => rfl

/-- The order of the containers makes no difference to what is left mounted, nor to what becomes of any
of them: each ends as it would if it were torn down alone. -/
theorem tearDownAll_perm (hperm : cs.Perm ds) (hact : ActsLocally sharedDir sandbox cs own h)
    (hapart : cs.Pairwise fun c d => c.IsShared sandbox → d.IsShared sandbox →
      target sharedDir sandbox c.id ≠ target sharedDir sandbox d.id) :
    ∃ report report' h₁ h₂, Rootfs.tearDownAll sharedDir sandbox cs h = (report, h₁) ∧
      Rootfs.tearDownAll sharedDir sandbox ds h = (report', h₂) ∧ h₂.mounts = h₁.mounts ∧
      report = ⟨cs.flatMap fun c => (Rootfs.tearDown sharedDir sandbox c h).1.detached,
        cs.flatMap fun c => (Rootfs.tearDown sharedDir sandbox c h).1.failures⟩ ∧
      report' = ⟨ds.flatMap fun c => (Rootfs.tearDown sharedDir sandbox c h).1.detached,
        ds.flatMap fun c => (Rootfs.tearDown sharedDir sandbox c h).1.failures⟩ ∧
      report'.detached.Perm report.detached ∧ report'.failures.Perm report.failures := by
  have hapart' : ds.Pairwise fun c d => c.IsShared sandbox → d.IsShared sandbox →
      target sharedDir sandbox c.id ≠ target sharedDir sandbox d.id :=
    hperm.pairwise hapart fun hne hd hc => (hne hc hd).symm
  obtain ⟨hreport, hmounts⟩ := hact.tearDownAll_start (.refl cs) hapart
  obtain ⟨hreport', hmounts'⟩ := hact.tearDownAll_start hperm.symm hapart'
  refine ⟨_, _, _, _, rfl, rfl, ?_, hreport, hreport', ?_, ?_⟩
  · rw [hmounts, hmounts']
    exact takeAll_perm (hperm.symm.flatMap_right _) _
  · rw [hreport, hreport']
    exact hperm.symm.flatMap_right _
  · rw [hreport, hreport']
    exact hperm.symm.flatMap_right _

end

/-- The share of `c` is in place twice, that of `d` cannot be detached, and there is a mount at `/v`. -/
def busy : Host :=
  let h := (sharing ["c", "d", "c"]).place [[0x76]] (.dir 0o755) none none
  { h with
    mounts := ⟨⟨[slash, 0x72]⟩, ⟨[slash, 0x76]⟩, true, false⟩ :: h.mounts
    faults := [⟨.unmount, some (target ⟨[slash, 0x73]⟩ "b" "d"), .busy, none⟩] }

/-- One share is given up, one is busy and one was never made; of the releases one fails, and one
detaches what only it can detach. -/
theorem tearDownAll_perm_busy :
    let volume : Path := ⟨[slash, 0x76]⟩
    let cs : List (Container (StateM Host)) := [⟨"c", "", pure (.error .serialization)⟩,
      ⟨"d", "", pure (.ok ())⟩, ⟨"v", "ext4", (Bind.detach volume).run⟩, ⟨"e", "", pure (.ok ())⟩]
    ∃ report report' h₁ h₂, tearDownAll ⟨[slash, 0x73]⟩ "b" cs busy = (report, h₁) ∧
      tearDownAll ⟨[slash, 0x73]⟩ "b" cs.reverse busy = (report', h₂) ∧
      h₂.mounts = h₁.mounts ∧ h₁.mounts.length = 2 ∧ h₁.mountsAt volume = [] ∧
      report.detached = ["c"] ∧ report'.detached.Perm report.detached ∧
      report'.failures.Perm report.failures ∧ report.failures.length = 3 := by
  intro volume cs
  let place (c : Container (StateM Host)) : Option Path := if c.id = "v" then some volume else none
  have hreleases : ∀ c ∈ cs, c.ReleasesAt (place c) := by
    simp only [cs, List.forall_mem_cons]
    exact ⟨.reports rfl, .reports rfl, .detaches rfl, .reports rfl, nofun⟩
  have htargets : ∀ c ∈ cs, ∀ d ∈ cs, d.IsShared "b" →
      place c ≠ some (target ⟨[slash, 0x73]⟩ "b" d.id) := by
    have hvolume : volume ∉ cs.map fun d => target ⟨[slash, 0x73]⟩ "b" d.id := by decide +kernel
    intro c _ d hd _ heq
    unfold place at heq
    split at heq
    · exact hvolume (List.mem_map.2 ⟨d, hd, (Option.some.inj heq).symm⟩)
    · cases heq
  have hlasting : busy.IsLasting := by decide
  have hapart : cs.Pairwise fun c d => c.IsShared "b" → d.IsShared "b" →
      target ⟨[slash, 0x73]⟩ "b" c.id ≠ target ⟨[slash, 0x73]⟩ "b" d.id := by
    have htargets : (cs.map fun c => target ⟨[slash, 0x73]⟩ "b" c.id).Nodup := by decide +kernel
    exact (List.pairwise_map.1 htargets).imp fun hne _ _ => hne
  obtain ⟨report, report', h₁, h₂, hall, hall', hms, -, -, hdetached, hfailures⟩ :=
    tearDownAll_perm cs.reverse_perm.symm
      (actsLocally_of_releasesAt hlasting hreleases (by decide) htargets) hapart
  have hleft : (tearDownAll ⟨[slash, 0x73]⟩ "b" cs busy).2.mounts.length = 2 := by decide +kernel
  have hvolume : (tearDownAll ⟨[slash, 0x73]⟩ "b" cs busy).2.mountsAt volume = [] := by decide +kernel
  have hgiven : (tearDownAll ⟨[slash, 0x73]⟩ "b" cs busy).1.detached = ["c"] := by decide +kernel
  have hfailed : (tearDownAll ⟨[slash, 0x73]⟩ "b" cs busy).1.failures.length = 3 := by decide +kernel
  rw [hall] at hleft hvolume hgiven hfailed
  exact ⟨report, report', h₁, h₂, hall, hall', hms, hleft, hvolume, hgiven, hdetached,
    hfailures, hfailed⟩

end Rootfs

end SandboxMounts
