import SandboxMounts.Proofs.Retention

/-!
A preparation done twice. The first leaves directories above the destination and something at it; the
second finds these by the same paths and makes nothing.
-/

set_option autoImplicit false

namespace SandboxMounts

namespace Host

section

variable {h h' h'' : Host} {p : Path} {node : Node} {ps : List Path}

theorem isTruthful_of_nil (hf : h.faults = []) (p : Path) : h.IsTruthful p := fun f hmem => by
  rw [hf] at hmem
  cases hmem

theorem Grows.faults_eq_nil (hg : h.Grows h') (hf : h.faults = []) : h'.faults = [] :=
  List.eq_nil_iff_forall_not_mem.2 fun f' hf' => by
    obtain ⟨f, hmem, -⟩ := hg.faults f' hf'
    rw [hf] at hmem
    cases hmem

theorem IsTaken.mkdirIn (ht : h.IsTaken p) : mkdirIn p h = .error .alreadyExists := by
  obtain ⟨q, hq, hv⟩ := ht
  rw [Host.mkdirIn, hq]
  cases q with
  | node l => rfl
  | vacant dir m => exact absurd rfl (hv dir m)
  | adrift l => rfl

theorem isTaken_of_mkdir {r : Except IoError Unit} (ht : h.IsTruthful p) (hm : mkdir p h = (r, h'))
    (hr : r = .ok () ∨ r = .error (.os .alreadyExists)) : h'.IsTaken p := by
  rcases hr with rfl | rfl
  · obtain ⟨dir, m, hl, rfl⟩ := mkdir_ok hm
    exact ⟨_, locate_add (.inl rfl) hl, by simp⟩
  · obtain ⟨rfl, hq⟩ := mkdir_exists ht hm
    exact hq

theorem mkdirOrFind_ok {u : Unit} (ht : h.IsTruthful p) (hm : mkdirOrFind p h = (.ok u, h')) :
    p.hasNul = false ∧ h'.IsTaken p ∧ h'.leadsToDir p = true := by
  have hnul : p.hasNul = false := Bool.eq_false_iff.2 fun hc => by
    rw [mkdirOrFind_of_hasNul hc] at hm
    cases hm
  refine ⟨hnul, ?_⟩
  obtain ⟨r, h₁, hr⟩ : ∃ r h₁, mkdir p h = (r, h₁) := ⟨_, _, rfl⟩
  rw [mkdirOrFind, Effect.bind_of_ok (Effect.outcome_of_eq hr)] at hm
  split at hm
  · obtain ⟨hlook, rfl⟩ := look_ok hm
    refine ⟨isTaken_of_mkdir ht hr (.inr rfl), ?_⟩
    by_contra hno
    rw [if_neg hno] at hlook
    cases hlook
  · cases hm
  · cases hm
    refine ⟨isTaken_of_mkdir ht hr (.inl rfl), ?_⟩
    obtain ⟨dir, m, hl, rfl⟩ := mkdir_ok hr
    have hfor : LastName.kept.IsFor (.dir h.modeOf) := .inl rfl
    obtain ⟨st, hs, hnode⟩ := statOf_add hfor hl
    exact leadsToDir_iff.2 ⟨st, hs, by rw [hnode]; rfl⟩

theorem exists_of_mkdirs {u : Unit} (hf : h.faults = []) (hempty : p.isEmpty = false)
    (hm : mkdirs (p :: ps) h = (.ok u, h')) :
    ∃ h₁, h₁.faults = [] ∧ mkdirOrFind p h₁ = (.ok (), h') := by
  obtain ⟨r, h₁, hr⟩ : ∃ r h₁, mkdirOrFind p h = (r, h₁) := ⟨_, _, rfl⟩
  have hg₁ : h.Grows h₁ := by
    have hkeeps := Effect.Keeps.mkdirOrFind (.mkdir keeps_meetFault (grows_add (p := p) _)) h
    rwa [hr] at hkeeps
  rw [mkdirs, hempty, if_neg Bool.false_ne_true, Effect.bind_of_ok (Effect.outcome_of_eq hr)] at hm
  split at hm
  · obtain ⟨_, h₂, hdirs, hm⟩ := Effect.bind_eq_ok.1 hm
    have hg₂ := keeps_mkdirs ps h₁
    rw [hdirs] at hg₂
    exact ⟨h₂, hg₂.faults_eq_nil (hg₁.faults_eq_nil hf), hm⟩
  · cases hm
  · cases hm
    exact ⟨h, hf, hr⟩

/-- The first of the directories is found at once when all have been made before. -/
theorem mkdirs_again {u : Unit} (hf : h.faults = []) (hf'' : h''.faults = [])
    (hm : mkdirs ps h = (.ok u, h')) (hr : h'.Retains h'') : mkdirs ps h'' = (.ok (), h'') := by
  cases ps with
  | nil => rfl
  | cons p ps =>
    cases hempty : p.isEmpty with
    | true =>
      rw [mkdirs, hempty, if_pos rfl]
      rfl
    | false =>
      obtain ⟨h₁, hf₁, hm₁⟩ := exists_of_mkdirs hf hempty hm
      obtain ⟨hnul, htaken, hdir⟩ := mkdirOrFind_ok (isTruthful_of_nil hf₁ p) hm₁
      refine mkdirs_of_stop hempty ?_ (by simp)
      rw [mkdirOrFind_of_exists hf'' hnul (hr.taken p htaken).mkdirIn, hr.dirs p hdir, if_pos rfl]

theorem metadata_again (hf : h'.faults = []) (hg : h.Grows h') (hr : h.Retains h')
    (hm : metadata p h = (.ok node, h)) :
    ∃ node', metadata p h' = (.ok node', h') ∧ node'.isDir = node.isDir := by
  have hnul : p.hasNul = false := Bool.eq_false_iff.2 fun hc => by
    have hn : metadata p h = (.error .nulInPath, h) := Effect.bind_of_error (refuseNul_of_hasNul hc)
    rw [hn] at hm
    cases hm
  obtain ⟨⟨st, hs, rfl⟩, -⟩ := metadata_ok hm
  have hst : ∃ st', h'.statOf .followed p = .ok st' ∧ st'.node.isDir = st.node.isDir := by
    cases hd : st.node.isDir with
    | true => exact leadsToDir_iff.1 (hr.dirs p (leadsToDir_iff.2 ⟨st, hs, hd⟩))
    | false =>
      obtain ⟨place, hl, hs⟩ := except_bind_eq_ok.1 hs
      cases place with
      | vacant dir n => cases hs
      | adrift l =>
        cases hs
        cases hd
      | node l =>
        simp only at hs
        split at hs <;> cases hs
        exact ⟨_, statOf_node (hg.locate_node hl) (hg.tree _ _ ‹_›), hd⟩
  obtain ⟨st', hs', hd⟩ := hst
  exact ⟨st'.node, by rw [metadata_of_calm hf hnul, hs'], hd⟩

theorem mkdir_again {r : Except IoError Unit} (hf : h.faults = []) (hf' : h'.faults = [])
    (hnul : p.hasNul = false) (hm : mkdir p h = (r, h'))
    (hr : r = .ok () ∨ r = .error (.os .alreadyExists)) :
    mkdir p h' = (.error (.os .alreadyExists), h') := by
  rw [mkdir_of_calm hf' hnul, change, (isTaken_of_mkdir (isTruthful_of_nil hf p) hm hr).mkdirIn]

theorem create_again {u : Unit} (hf : h'.faults = []) (hnul : p.hasNul = false)
    (hc : create p h = (.ok u, h')) : create p h' = (.ok (), h') := by
  have hfile : ∃ l kind mode content, h'.locate .created p = .ok (.node l) ∧
      h'.tree.get? l = some (.leaf kind mode content) := by
    rcases create_ok hc with ⟨l, kind, mode, content, hl, hg, rfl⟩ | ⟨dir, m, hl, rfl⟩
    · exact ⟨l, kind, mode, content, hl, hg⟩
    · exact ⟨_, _, _, _, locate_add (.inr ⟨rfl, _, _, _, rfl⟩) hl, Tree.get?_insert_self _ _ _ _⟩
  obtain ⟨l, kind, mode, content, hl, hg⟩ := hfile
  have hin : createIn p h' = .ok h' := by
    rw [createIn, hl]
    simp only [bind, Except.bind, hg]
  rw [create_of_calm hf hnul, change, hin]

end

end Host

/-- On a host without faults a destination that has been prepared is found ready when it is prepared again
for the same source, and nothing of the host changes. -/
theorem Bind.prepare_again {source destination : Path} {h h' : Host} (hf : h.faults = [])
    (hp : prepare source destination h = (.ok (), h')) :
    prepare source destination h' = (.ok (), h') := by
  have hnul := hasNul_eq_false_of_prepare hp
  have hg := Host.keeps_prepare source destination h
  have hr := Host.Retains.keeps_prepare source destination h
  rw [hp] at hg hr
  have hf' := hg.faults_eq_nil hf
  obtain ⟨node, h₁, h₂, hmeta, hdirs, hlast⟩ := prepare_ok hp
  obtain ⟨-, rfl⟩ := Host.metadata_ok hmeta
  have hf₂ : h₂.faults = [] := by
    have hg₂ := Host.keeps_mkdirs destination.parents h₁
    rw [hdirs] at hg₂
    exact hg₂.faults_eq_nil hf
  obtain ⟨node', hmeta', hdir⟩ := Host.metadata_again hf' hg hr hmeta
  rw [prepare_of_metadata hmeta', hdir]
  -- the last call keeps what the parents have been found to be
  rcases hlast with ⟨hd, r, hm, hok⟩ | ⟨hd, hc⟩
  · have hr₂ := Host.Retains.keeps_mkdir destination h₂
    rw [hm] at hr₂
    rw [Effect.bind_of_ok (Host.mkdirs_again hf hf' hdirs hr₂), hd]
    exact Host.finish_of_mkdir (Host.mkdir_again hf₂ hf' hnul hm hok) (.inr rfl)
  · have hr₂ := Host.Retains.keeps_create destination h₂
    rw [hc] at hr₂
    rw [Effect.bind_of_ok (Host.mkdirs_again hf hf' hdirs hr₂), hd]
    exact Host.create_again hf' hnul hc

/-- The working directory `/w/v` has been removed, and `/w` too. The link `/l` leads to the directory `/b`,
and `/g` through it to a name that is free. -/
def Host.stranded : Host :=
  { Host.initial with
    tree := ⟨[([[0x72]], .dir 0o755), ([[0x66]], .leaf .regular 0o644 []), ([[0x62]], .dir 0o700),
      ([[0x6C]], .link (.ofString "b")), ([[0x67]], .link (.ofString "l/n"))]⟩
    cwd := [[0x76], [0x77]]
    cwdGone := true }

/-- The first time `/w` and `/w/v` are made anew on the way, so that the second finds another way out of
the working directory. -/
theorem Bind.prepare_again_stranded :
    (∃ h', prepare (.ofString "/r") (.ofString "../../w/v/../../l/x//y/") Host.stranded = (.ok (), h') ∧
      h'.tree.get? [[0x77]] = some (.dir 0o755) ∧
      h'.tree.get? [[0x79], [0x78], [0x62]] = some (.dir 0o755) ∧
      prepare (.ofString "/r") (.ofString "../../w/v/../../l/x//y/") h' = (.ok (), h')) ∧
    ∃ h', prepare (.ofString "/f") (.ofString "/g") Host.stranded = (.ok (), h') ∧
      h'.tree.get? [[0x6E], [0x62]] = some (.leaf .regular 0o755 []) ∧
      prepare (.ofString "/f") (.ofString "/g") h' = (.ok (), h') := by
  have hdir := Effect.eq_of_isOk (x := prepare (.ofString "/r") (.ofString "../../w/v/../../l/x//y/"))
    (h := Host.stranded) (by decide +kernel)
  have hfile := Effect.eq_of_isOk (x := prepare (.ofString "/f") (.ofString "/g"))
    (h := Host.stranded) (by decide +kernel)
  refine ⟨⟨_, hdir, ?_, ?_, prepare_again rfl hdir⟩, _, hfile, ?_, prepare_again rfl hfile⟩
  all_goals decide +kernel

end SandboxMounts
