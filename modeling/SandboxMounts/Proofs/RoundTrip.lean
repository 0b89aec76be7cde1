import SandboxMounts.Proofs.Growth
import SandboxMounts.Proofs.Visits

/-!
Shares and their teardown. What the shares of a sandbox add lies on top of all that was mounted before,
one mount for each; the teardown takes it away again from the top of each target, in any order.
-/

set_option autoImplicit false

namespace SandboxMounts

def MountRequest.isBind : MountRequest → Bool
  | .bind _ => true
  | _ => false

namespace Host

structure CanDetach (h : Host) (p : Path) : Prop where
  leads : ∃ st, h.statOf .followed p = .ok st
  spared : h.IsSpared .unmount p

section

variable {h : Host} {t : Path} {added ms : List Mount}

theorem CanDetach.issue (hd : h.CanDetach t) (hn : t.hasNul = false)
    (hms : mountsAfter? .detach t h.mounts = some ms) :
    Host.issue .detach t h = (.ok (), record { h with mounts := ms } ⟨.detach, t, none⟩) := by
  have hfault : meetFault (MountRequest.kind .detach) t h = (.ok (), h) := by
    rw [MountRequest.kind, meetFault, useFault?_eq_none hd.spared]
  have hperform : performIn .detach t h = .ok { h with mounts := ms } := by
    obtain ⟨st, hst⟩ := hd.leads
    simp only [performIn, hst, hms]
    rfl
  have hchange : change (performIn .detach t) h = (.ok (), { h with mounts := ms }) := by
    rw [change, hperform]
  unfold Host.issue
  rw [Effect.bind_of_ok (refuseNul_of_clean hn), Effect.bind_of_ok hfault, hchange]

theorem CanDetach.after {p : Path} {c : MountCall} (hd : h.CanDetach p) :
    (record { h with mounts := ms } c).CanDetach p where
  leads := by
    have hsame : h.SameFiles (record { h with mounts := ms } c) := ⟨_, _, _, rfl⟩
    simpa only [hsame.statOf] using hd.leads
  spared := hd.spared

/-- A detach takes the newest of the mounts added at its target, and none of the older ones. -/
theorem detach_added (old : List Mount) (ht : t ∈ added.map Mount.target) :
    ∃ added', mountsAfter? .detach t (added ++ old) = some (added' ++ old) ∧
      added'.map Mount.target = (added.map Mount.target).erase t := by
  induction added with
  | nil => cases ht
  | cons m added ih =>
    by_cases hm : m.target = t
    · exact ⟨added, detach_newest (added ++ old) hm, by simp [hm]⟩
    · have htail : t ∈ added.map Mount.target := by
        simpa [Ne.symm hm] using ht
      obtain ⟨added', hms, htargets⟩ := ih htail
      refine ⟨m :: added', ?_, by simp [hm, htargets]⟩
      change editNewest? t (fun _ => []) (m :: (added ++ old)) = _
      change editNewest? t (fun _ => []) (added ++ old) = _ at hms
      simp [editNewest?, hm, hms]

end

/-- From `h` to `h'` mounts were added on top, one at each target by a bind call of its own, and the
targets are there. -/
structure Adds (ts : List Path) (h h' : Host) : Prop where
  grows : h.Grows h'
  entries : ∀ t ∈ ts, t.EndsInName ∧ t.hasNul = false
  named : ∀ t ∈ ts, h.IsTruthful t → h'.Names t
  mounts : ∃ added, h'.mounts = added ++ h.mounts ∧ (added.map Mount.target).Perm ts
  calls : ∃ made, h'.calls = h.calls ++ made ∧
    (made.filter (·.request.isBind)).map MountCall.target = ts

theorem adds_nil (h : Host) : Adds [] h h where
  grows := refl_of Grows h
  entries := by simp
  named := by simp
  mounts := ⟨[], rfl, .nil⟩
  calls := ⟨[], by simp, rfl⟩

theorem Adds.append {ts us : List Path} {h₁ h₂ h₃ : Host} (ha : Adds ts h₁ h₂) (hb : Adds us h₂ h₃) :
    Adds (ts ++ us) h₁ h₃ where
  grows := trans_of Grows ha.grows hb.grows
  entries := List.forall_mem_append.2 ⟨ha.entries, hb.entries⟩
  named := by
    refine List.forall_mem_append.2 ⟨fun t ht htruth => ?_, fun t ht htruth => ?_⟩
    · exact hb.grows.names (ha.entries t ht).1 (ha.named t ht htruth)
    · exact hb.named t ht (ha.grows.isTruthful htruth)
  mounts := by
    obtain ⟨added, hms, hperm⟩ := ha.mounts
    obtain ⟨added', hms', hperm'⟩ := hb.mounts
    refine ⟨added' ++ added, by rw [hms', hms, List.append_assoc], ?_⟩
    rw [List.map_append]
    exact (hperm'.append hperm).trans List.perm_append_comm
  calls := by
    obtain ⟨made, hcalls, hts⟩ := ha.calls
    obtain ⟨made', hcalls', hus⟩ := hb.calls
    exact ⟨made ++ made', by rw [hcalls', hcalls, List.append_assoc], by simp [hts, hus]⟩

end Host

theorem Bind.make_adds {source t : Path} {readOnly : Bool} {h h' : Host} (ht : t.EndsInName)
    (hm : make source t readOnly h = (.ok (), h')) : h.Adds [t] h' := by
  obtain ⟨l, h₁, -, hprep, hattach⟩ : ∃ l h₁, Host.resolve source h = (.ok l, h) ∧
      prepare l.path t h = (.ok (), h₁) ∧
      make source t readOnly h = attach l.path t readOnly h₁ := by
    rcases make_cases source t readOnly h with ⟨e, h'', hm', -⟩ | hmake
    · rw [hm] at hm'
      cases hm'
    · exact hmake
  obtain ⟨r, h'', calls, hm', hcalls, hend⟩ := make_ending source t readOnly h
  rw [hm] at hm'
  cases hm'
  obtain ⟨l', hend⟩ : ∃ l', Ending l' t readOnly h.mounts (.ok ()) calls h'.mounts := by
    rcases hend with ⟨-, -, e, he, -⟩ | ⟨l', -, hend⟩
    · cases he
    · exact ⟨_, hend⟩
  obtain ⟨rfl, hms⟩ := hend.of_ok
  have hgrows := Host.keeps_make source t readOnly h
  have hlater := Host.keeps_attach l.path t readOnly h₁
  rw [← hattach, hm] at hlater
  rw [hm] at hgrows
  exact {
    grows := hgrows
    entries := by simpa using ⟨ht, hasNul_eq_false_of_prepare hprep⟩
    named := by simpa using fun htruth => hlater.names ht (Host.names_of_prepare ht htruth hprep)
    mounts := ⟨[_], hms, .refl _⟩
    calls := ⟨_, hcalls, by cases readOnly <;> rfl⟩ }

namespace Rootfs

section

variable {sharedDir : Path} {sandbox : String} {h h' : Host}

theorem target_endsInName (sharedDir : Path) (sandbox container : String) :
    (target sharedDir sandbox container).EndsInName :=
  ⟨_, _, Path.steps_join _ (by decide) (by decide), by decide, by decide⟩

theorem target_endsInSlash (sharedDir : Path) (sandbox container : String) :
    (target sharedDir sandbox container).endsInSlash = false :=
  Path.endsInSlash_join _ (by decide) (by decide)

structure Request where
  container : String
  rootfs : Path
  readOnly : Bool

theorem share_adds {container : String} {rootfs : Path} {readOnly : Bool}
    (hs : share sharedDir sandbox container rootfs readOnly h = (.ok (), h')) :
    requireNames sandbox container = .ok () ∧ h.Adds [target sharedDir sandbox container] h' := by
  cases hr : requireNames sandbox container with
  | error e =>
    rw [share_of_error sharedDir rootfs readOnly h hr] at hs
    cases hs
  | ok u =>
    rw [share_of_ok sharedDir rootfs readOnly h hr] at hs
    exact ⟨rfl, Bind.make_adds (target_endsInName sharedDir sandbox container) hs⟩

theorem shares_add {rs : List Request}
    (hs : (rs.forM fun r => share sharedDir sandbox r.container r.rootfs r.readOnly) h = (.ok (), h')) :
    (∀ r ∈ rs, requireNames sandbox r.container = .ok ()) ∧
      h.Adds (rs.map fun r => target sharedDir sandbox r.container) h' := by
  induction rs generalizing h with
  | nil =>
    cases hs
    exact ⟨by simp, Host.adds_nil _⟩
  | cons r rs ih =>
    obtain ⟨_, h₁, hfirst, hrest⟩ := Effect.bind_eq_ok.1 hs
    obtain ⟨hr, ha⟩ := share_adds hfirst
    obtain ⟨hrs, hb⟩ := ih hrest
    exact ⟨List.forall_mem_cons.2 ⟨hr, hrs⟩, ha.append hb⟩

def Container.IsQuiet (c : Container (StateM Host)) : Prop :=
  ∀ h, SameMounts h (c.releaseHostMounts h).2 ∧
    ∀ p, h.CanDetach p → (c.releaseHostMounts h).2.CanDetach p

theorem isQuiet_pure {id fsType : String} {r : Except Error Unit} :
    Container.IsQuiet ⟨id, fsType, pure r⟩ := fun h => ⟨refl_of SameMounts h, fun _ hp => hp⟩

structure Container.IsDue (c : Container (StateM Host)) (sharedDir : Path) (sandbox : String) :
    Prop where
  shared : c.fsType = ""
  names : requireNames sandbox c.id = .ok ()
  hasNul : (target sharedDir sandbox c.id).hasNul = false
  quiet : c.IsQuiet

theorem ShareEnd.of_issue_ok {c : Container (StateM Host)} {h₁ : Host}
    {r : Option (Except Error Unit)} (hend : ShareEnd sharedDir sandbox c h r h')
    (hc : c.IsDue sharedDir sandbox)
    (hd : Host.issue .detach (target sharedDir sandbox c.id) h = (.ok (), h₁)) :
    r = some (.ok ()) ∧ h' = h₁ := by
  obtain ⟨hs, hid⟩ := requireNames_ok.1 hc.names
  cases hend with
  | absent hf => exact absurd hc.shared hf
  | noSandbox hf hs' =>
    rw [hs] at hs'
    cases hs'
  | noContainer hf hs' hid' =>
    rw [hid] at hid'
    cases hid'
  | detached hf hs' hid' hd' =>
    rw [hd] at hd'
    cases hd'
    exact ⟨rfl, rfl⟩
  | stuck hf hs' hid' hd' =>
    rw [hd] at hd'
    cases hd'

/-- A visit takes one of the mounts that were added, and nothing that it does keeps another from being
taken. -/
theorem Visit.Happens.take_away {v : Visit} {added old : List Mount}
    (hv : v.Happens sharedDir sandbox) (hdue : v.container.IsDue sharedDir sandbox)
    (hdetach : v.before.CanDetach (target sharedDir sandbox v.container.id))
    (hms : v.before.mounts = added ++ old)
    (ht : target sharedDir sandbox v.container.id ∈ added.map Mount.target) :
    ∃ added', v.after.mounts = added' ++ old ∧
      added'.map Mount.target =
        (added.map Mount.target).erase (target sharedDir sandbox v.container.id) ∧
      v.after.calls =
        v.before.calls ++ [⟨.detach, target sharedDir sandbox v.container.id, none⟩] ∧
      v.share = some (.ok ()) ∧ ∀ p, v.before.CanDetach p → v.after.CanDetach p := by
  obtain ⟨hsame, hstays⟩ := hdue.quiet v.before
  rw [hv.release] at hsame hstays
  obtain ⟨added', hafter, htargets⟩ := Host.detach_added old ht
  rw [← hms, ← hsame.1] at hafter
  obtain ⟨hok, hend⟩ := hv.share.of_issue_ok hdue ((hstays _ hdetach).issue hdue.hasNul hafter)
  refine ⟨added', by rw [hend]; rfl, htargets, ?_, hok, fun p hp => ?_⟩
  · rw [hend, ← hsame.2]
    rfl
  · rw [hend]
    exact (hstays p hp).after

theorem Visited.take_away {vs : List Visit} {added old : List Mount}
    (hvs : Visited sharedDir sandbox h vs h')
    (hdue : ∀ v ∈ vs, v.container.IsDue sharedDir sandbox ∧
      h.CanDetach (target sharedDir sandbox v.container.id))
    (hms : h.mounts = added ++ old)
    (hperm : (added.map Mount.target).Perm
      (vs.map fun v => target sharedDir sandbox v.container.id)) :
    h'.mounts = old ∧
      h'.calls = h.calls ++
        vs.map (fun v => ⟨.detach, target sharedDir sandbox v.container.id, none⟩) ∧
      ∀ v ∈ vs, v.share = some (.ok ()) := by
  induction hvs generalizing added with
  | nil =>
    obtain rfl : added = [] := by simpa using hperm
    exact ⟨hms, by simp, by simp⟩
  | @cons v vs h hv hvs ih =>
    obtain ⟨hv', hdetach⟩ := hdue v List.mem_cons_self
    obtain ⟨added', hms', htargets, hcall, hok, hstays⟩ :=
      hv.take_away hv' hdetach hms (hperm.mem_iff.2 List.mem_cons_self)
    -- which of several mounts at one target goes first makes no difference to the targets that are left
    have hrest : (added'.map Mount.target).Perm
        (vs.map fun v => target sharedDir sandbox v.container.id) := by
      have herase := hperm.erase (target sharedDir sandbox v.container.id)
      rwa [List.map_cons, List.erase_cons_head, ← htargets] at herase
    have hdue' : ∀ u ∈ vs, u.container.IsDue sharedDir sandbox ∧
        v.after.CanDetach (target sharedDir sandbox u.container.id) := fun u hu => by
      obtain ⟨hu', hdet⟩ := hdue u (List.mem_cons_of_mem v hu)
      exact ⟨hu', hstays _ hdet⟩
    obtain ⟨hold, hcalls, hall⟩ := ih hdue' hms' hrest
    refine ⟨hold, ?_, List.forall_mem_cons.2 ⟨hok, hall⟩⟩
    rw [hcalls, hcall, List.append_assoc]
    rfl

theorem flatMap_detached {vs : List Visit} (hvs : ∀ v ∈ vs, v.share = some (.ok ())) :
    vs.flatMap Visit.detached = vs.map fun v => v.container.id := by
  induction vs with
  | nil => rfl
  | cons v vs ih =>
    have hv : v.detached = [v.container.id] := by
      rw [Visit.detached, hvs v List.mem_cons_self]
    rw [List.flatMap_cons, hv, ih fun u hu => hvs u (List.mem_cons_of_mem v hu)]
    rfl

/-- Where every share has been given and no destination is a link to nowhere, the teardown takes away
exactly what the shares added, whatever the order and however often an id is repeated. What else was
mounted stays, and no failure is one of a share. -/
theorem tearDownAll_shared {rs : List Request} {cs : List (Container (StateM Host))} {h₁ : Host}
    (hs : (rs.forM fun r => share sharedDir sandbox r.container r.rootfs r.readOnly) h = (.ok (), h₁))
    (hperm : (rs.map Request.container).Perm (cs.map Container.id))
    (hcs : ∀ c ∈ cs, c.fsType = "" ∧ c.IsQuiet)
    (hspared : ∀ c ∈ cs, h₁.IsSpared .unmount (target sharedDir sandbox c.id))
    (htruth : ∀ c ∈ cs, h.IsTruthful (target sharedDir sandbox c.id))
    (hlinks : ∀ c ∈ cs, ¬ h₁.HasDeadLink (target sharedDir sandbox c.id)) :
    ∃ report h₂ made, tearDownAll sharedDir sandbox cs h₁ = (report, h₂) ∧
      report.detached = cs.map Container.id ∧ (∀ f ∈ report.failures, f.part = .hostMounts) ∧
      h₁.calls = h.calls ++ made ∧
      (made.filter (·.request.isBind)).map MountCall.target =
        rs.map (fun r => target sharedDir sandbox r.container) ∧
      h₂.calls = h₁.calls ++
        cs.map (fun c => ⟨.detach, target sharedDir sandbox c.id, none⟩) ∧
      h₂.mounts = h.mounts := by
  obtain ⟨hnames, hadds⟩ := shares_add hs
  have hids : ∀ c ∈ cs, ∃ r ∈ rs, r.container = c.id := fun c hc => by
    have hmem := hperm.mem_iff.2 (List.mem_map_of_mem hc)
    exact List.mem_map.1 hmem
  have htargets : ∀ c ∈ cs, target sharedDir sandbox c.id ∈
      rs.map fun r => target sharedDir sandbox r.container := fun c hc => by
    obtain ⟨r, hr, hid⟩ := hids c hc
    exact List.mem_map.2 ⟨r, hr, by rw [hid]⟩
  have hdue : ∀ c ∈ cs, c.IsDue sharedDir sandbox ∧
      h₁.CanDetach (target sharedDir sandbox c.id) := fun c hc => by
    obtain ⟨r, hr, hid⟩ := hids c hc
    obtain ⟨hend, hnul⟩ := hadds.entries _ (htargets c hc)
    have hnamed := hadds.named _ (htargets c hc) (htruth c hc)
    exact ⟨⟨(hcs c hc).1, hid ▸ hnames r hr, hnul, (hcs c hc).2⟩,
      hnamed.statOf_followed hend (target_endsInSlash sharedDir sandbox c.id) (hlinks c hc),
      hspared c hc⟩
  obtain ⟨vs, h₂, rfl, hvs, hall⟩ := tearDownAll_visits sharedDir sandbox cs h₁
  obtain ⟨added, hms, hadded⟩ := hadds.mounts
  obtain ⟨made, hcalls, hmade⟩ := hadds.calls
  have hperm' : (added.map Mount.target).Perm
      (vs.map fun v => target sharedDir sandbox v.container.id) := by
    have hmap := hperm.map (target sharedDir sandbox)
    simp only [List.map_map] at hmap
    exact hadded.trans hmap
  obtain ⟨hms', hcalls', hok⟩ := hvs.take_away
    (fun v hv => hdue v.container (List.mem_map_of_mem hv)) hms hperm'
  refine ⟨_, h₂, made, hall, ?_, ?_, hcalls, hmade, by rw [hcalls', List.map_map]; rfl, hms'⟩
  · rw [List.map_map]
    exact flatMap_detached hok
  · intro f hf
    obtain ⟨v, hv, hf⟩ := List.mem_flatMap.1 hf
    obtain ⟨-, ⟨hp, -⟩ | ⟨-, he⟩⟩ := Visit.mem_failures.1 hf
    · exact hp
    · rw [hok v hv] at he
      cases he

theorem not_hasDeadLink {p : Path} (hp : (h.statOf .followed p).isOk = true) : ¬ h.HasDeadLink p := by
  intro hd
  cases hs : h.statOf .followed p with
  | ok st => exact hd.2 st hs
  | error e =>
    rw [hs] at hp
    cases hp

end

def overlaid : Host :=
  -- the root filesystem `/r`, and a mount already where the container `c` has its place
  { Host.initial with
    tree := ⟨[([[0x72]], .dir 0o755)]⟩
    mounts := [⟨⟨[slash, 0x6F]⟩, target ⟨[slash, 0x73]⟩ "b" "c", false, true⟩] }

theorem tearDownAll_shared_twice :
    let rs : List Request := [⟨"c", ⟨[slash, 0x72]⟩, false⟩, ⟨"d", ⟨[slash, 0x72]⟩, true⟩,
      ⟨"c", ⟨[slash, 0x72]⟩, true⟩]
    let cs : List (Container (StateM Host)) := [⟨"d", "", pure (.error (.emptyArgument "x"))⟩,
      ⟨"c", "", pure (.ok ())⟩, ⟨"c", "", pure (.ok ())⟩]
    ∃ h₁ report h₂,
      (rs.forM fun r => share ⟨[slash, 0x73]⟩ "b" r.container r.rootfs r.readOnly) overlaid =
        (.ok (), h₁) ∧
      h₁.mounts.length = 4 ∧ tearDownAll ⟨[slash, 0x73]⟩ "b" cs h₁ = (report, h₂) ∧
      report.detached = ["d", "c", "c"] ∧ h₂.mounts = overlaid.mounts := by
  intro rs cs
  let shares : Action Unit :=
    rs.forM fun r => share ⟨[slash, 0x73]⟩ "b" r.container r.rootfs r.readOnly
  have hs : shares overlaid = (.ok (), (shares overlaid).2) := Effect.eq_of_isOk (by decide +kernel)
  have hfaults : (shares overlaid).2.faults = [] := List.isEmpty_iff.1 (by decide +kernel)
  have hleads : ∀ c ∈ cs, ((shares overlaid).2.statOf .followed
      (target ⟨[slash, 0x73]⟩ "b" c.id)).isOk = true := by decide +kernel
  have hcs : ∀ c ∈ cs, c.fsType = "" ∧ c.IsQuiet := by
    simp [cs, isQuiet_pure]
  have hperm : (rs.map Request.container).Perm (cs.map Container.id) := .swap "d" "c" ["c"]
  obtain ⟨report, h₂, made, hall, hdetached, -, -, -, -, hms⟩ := tearDownAll_shared hs hperm hcs
    (fun c _ f hf => by rw [hfaults] at hf; cases hf) (fun c _ f hf => by cases hf)
    (fun c hc => not_hasDeadLink (hleads c hc))
  exact ⟨_, report, h₂, hs, by decide +kernel, hall, hdetached, hms⟩

def deadLinked : Host :=
  overlaid.place ((target ⟨[slash, 0x73]⟩ "b" "c").normalize []) (.link ⟨[slash, 0x67]⟩) none none

def untruthful : Host :=
  { overlaid with faults := [⟨.mkdir, some (target ⟨[slash, 0x73]⟩ "b" "c"), .alreadyExists, none⟩] }

def shareAndTearDown (h : Host) : (Except Error Unit × Host) × (Report × Host) :=
  let shared := share ⟨[slash, 0x73]⟩ "b" "c" ⟨[slash, 0x72]⟩ false h
  (shared, tearDownAll ⟨[slash, 0x73]⟩ "b" [⟨"c", "", (pure (.ok ()) : StateM Host _)⟩] shared.2)

/-- The share is given and cannot be taken back, though no detach is made to fail. -/
def IsSharedForGood (h : Host) : Prop :=
  (shareAndTearDown h).1.1.isOk = true ∧
    (∀ f ∈ (shareAndTearDown h).1.2.faults, f.call ≠ .unmount) ∧
    (shareAndTearDown h).2.1 =
      ⟨[], [⟨"c", .rootfs, .unmount (target ⟨[slash, 0x73]⟩ "b" "c") (.os .noEntry)⟩]⟩ ∧
    (shareAndTearDown h).2.2.mounts.length = h.mounts.length + 1

instance (h : Host) : Decidable (IsSharedForGood h) :=
  inferInstanceAs (Decidable (_ ∧ _ ∧ _ ∧ _))

/-- A share is given for a place that has never been made. -/
theorem tearDownAll_shared_nowhere : IsSharedForGood deadLinked ∧ IsSharedForGood untruthful := by
  decide +kernel

end Rootfs

end SandboxMounts
