import SandboxMounts.Proofs.Neighbours
import SandboxMounts.Proofs.RoundTrip

/-!
Where the place of a share comes to lie. A host either turns every preparation down for what the
paths are, or it has a site for the place, below the directory where the shared directory starts;
only a removed working directory may lead back nowhere.
-/

set_option autoImplicit false

namespace SandboxMounts

namespace Path

variable {p : Path} {n : Name}

theorem join_ne_nil (p : Path) (hn : n.IsEntry) : (p.join ⟨n⟩).bytes ≠ [] := by
  have hlen := length_le_join p (isAbsolute_of_name hn.ne_nil hn.no_slash)
  exact List.ne_nil_of_length_pos (Nat.lt_of_lt_of_le (List.length_pos_of_ne_nil hn.ne_nil) hlen)

theorem isAbsolute_join (p : Path) (hn : n.IsEntry) : (p.join ⟨n⟩).isAbsolute = p.isAbsolute :=
  isAbsolute_join_of_relative p (isAbsolute_of_name hn.ne_nil hn.no_slash)

theorem anchored_join_snoc (hp : p.bytes ≠ []) (hn : n.IsEntry) :
    ∃ ns, (p.join ⟨n⟩).anchored.2 = ns ++ [n] := by
  obtain ⟨s, ss, hs, -⟩ := segments_join hp hn
  refine ⟨Name.afterAnchor s ss, ?_⟩
  rw [anchored_eq hs (by simp), Name.afterAnchor_append]

end Path

namespace Tree

variable {t : Tree} {how : LastName} {links : Nat} {d l : Location} {n : Name} {ns : List Name}
  {s : Bool}
  {more : Bool}

theorem HasDirs.get? (hd : t.HasDirs d) : ∃ mode, t.get? d = some (.dir mode) := by
  obtain ⟨node, hnode, hdir⟩ := (Option.any_eq_true _ _).1 (hd d List.suffix_rfl)
  cases node with
  | dir mode => exact ⟨mode, hnode⟩
  | link target => cases hdir
  | leaf kind mode content => cases hdir

theorem HasNoLinks.survey_of_walk {q : Place} (ht : t.HasNoLinks)
    (hw : t.walk .followed s d ns = .ok (.place q)) (hv : ∀ dir m, q ≠ .vacant dir m)
    (hdir : ∀ l, q = .node l → (t.get? l).any Node.isDir = true) :
    t.survey more d ns = .ok (ns.foldl Location.follow d) := by
  replace hw := walks_of_walk hw
  generalize hstop : Stop.place q = stop at hw
  induction hw with
  | nil => rfl
  | here hw ih =>
    rw [survey_silent (.inl rfl), Location.follow_here, List.foldl_cons, Location.follow_here]
    exact ih hstop
  | up hw ih =>
    rw [survey_silent (.inr rfl), Location.follow_up, List.foldl_cons, Location.follow_up]
    exact ih hstop
  | @last dir n stop hh hu hlast =>
    rw [List.foldl_cons, List.foldl_nil, Location.follow_entry hh hu]
    obtain ⟨hlong, hlast⟩ := last_ok hlast
    rcases hlast with ⟨-, hlast⟩ | ⟨node, hg, hlast⟩ | ⟨target, hlast⟩ <;>
      rw [hlast] at hstop <;> cases hstop
    · exact absurd rfl (hv dir n)
    · have hd := hdir _ rfl
      rw [hg, Option.any_some] at hd
      rw [survey_entry hh hu hlong, hg]
      simp only [hd, if_true]
      rfl
  | dir hn hg hr hw ih =>
    rw [survey_entry hn.ne_here hn.ne_up (Nat.not_lt.2 hn.short), hg, List.foldl_cons,
      Location.follow_entry hn.ne_here hn.ne_up]
    exact ih hstop
  | link hn hg hr => exact absurd hg (ht _ _)

theorem HasDirs.survey_reverse (more : Bool) (hd : t.HasDirs l) (hl : l.IsSpellable) :
    t.survey more [] l.reverse = .ok l ∨ t.survey more [] l.reverse = .error .nameTooLong := by
  induction l generalizing more with
  | nil => exact .inl rfl
  | cons n l ih =>
    have hn := hl n List.mem_cons_self
    have habove := ih true (fun k hk => hd k (hk.trans (List.suffix_cons n l))) hl.tail
    rw [List.reverse_cons, survey_append (List.cons_ne_nil n [])]
    rcases habove with hok | herror
    · rw [hok]
      change t.survey more l [n] = _ ∨ t.survey more l [n] = _
      by_cases hlong : maxName < n.length
      · exact .inr (survey_long hn.ne_here hn.ne_up hlong)
      · obtain ⟨mode, hmode⟩ := hd.get?
        left
        rw [survey_entry hn.ne_here hn.ne_up hlong, hmode]
        rfl
    · rw [herror]
      exact .inr rfl

end Tree

namespace Host

structure IsCalm (h : Host) : Prop where
  faults : h.faults = []
  links : h.tree.HasNoLinks

section

variable {h : Host} {p : Path} {l : Location} {node : Node}

theorem resolve_ok {h' : Host} (hr : resolve p h = (.ok l, h')) :
    p.hasNul = false ∧ (p.isAbsolute = false → h.cwdGone = false) ∧
      h.locate .followed p = .ok (.node l) ∧ h' = h := by
  obtain ⟨_, h₁, hn, hlook⟩ := Effect.bind_eq_ok.1 hr
  obtain ⟨hnul, rfl⟩ := refuseNul_ok hn
  obtain ⟨hok, rfl⟩ := look_ok hlook
  cases habs : p.isAbsolute with
  | true =>
    rw [habs] at hok
    obtain ⟨place, hl, hok⟩ := except_bind_eq_ok.1 hok
    cases place <;> cases hok
    exact ⟨hnul, (fun hc => by cases hc), hl, rfl⟩
  | false =>
    rw [habs] at hok
    obtain ⟨_, hw, hok⟩ := except_bind_eq_ok.1 hok
    obtain ⟨place, hl, hok⟩ := except_bind_eq_ok.1 hok
    cases place <;> cases hok
    cases hc : h'.cwdGone with
    | false => exact ⟨hnul, fun _ => rfl, hl, rfl⟩
    | true =>
      rw [workingDirectory, hc] at hw
      cases hw

theorem resolve_of_locate (hnul : p.hasNul = false) (hc : p.isAbsolute = false → h.cwdGone = false)
    (hl : h.locate .followed p = .ok (.node l)) : resolve p h = (.ok l, h) := by
  rw [resolve, Effect.bind_of_ok (refuseNul_of_clean hnul), look, hl]
  cases habs : p.isAbsolute with
  | true => rfl
  | false =>
    rw [workingDirectory, hc habs]
    rfl

theorem resolve_grows {h' : Host} (hr : resolve p h = (.ok l, h)) (hg : h.Grows h') :
    resolve p h' = (.ok l, h') := by
  obtain ⟨hnul, hc, hl, -⟩ := resolve_ok hr
  exact resolve_of_locate hnul (fun habs => hg.cwdGone.trans (hc habs)) (hg.locate_node hl)

theorem exists_node_of_resolve (hs : h.IsSound) (hr : resolve p h = (.ok l, h)) :
    ∃ node, h.tree.get? l = some node :=
  hs.locate (resolve_ok hr).2.2.1

theorem survey_of_leadsToDir {absolute : Bool} {us rest : List Name} {d : Location}
    (ht : h.tree.HasNoLinks) (hstarts : h.Starts absolute us d) (habs : p.isAbsolute = absolute)
    (hsteps : p.steps = us ++ rest) (hdir : h.leadsToDir p = true) :
    h.tree.survey true d rest = .ok (rest.foldl Location.follow d) := by
  obtain ⟨st, hst, hnode⟩ := leadsToDir_iff.1 hdir
  obtain ⟨place, hl, hst⟩ := except_bind_eq_ok.1 hst
  obtain ⟨hlen, hempty⟩ := locate_ok hl
  rw [hstarts h (refl_of Grows h) p rest hlen hempty habs hsteps] at hl
  have hw : h.tree.walk .followed p.endsInSlash d rest = .ok (.place place) := by
    rcases Tree.locate_ok hl with hw | ⟨_, _, _, _, _, -, hw, -⟩
    · exact hw
    · obtain ⟨_, hp, -⟩ := ht.walk hw
      cases hp
  refine ht.survey_of_walk hw (fun dir m hv => ?_) (fun l hv => ?_)
  · subst hv
    cases hst
  · subst hv
    simp only at hst
    split at hst <;> cases hst
    rename_i hg
    rw [hg]
    exact hnode

theorem metadata_of_calm (hf : h.faults = []) (hnul : p.hasNul = false) :
    metadata p h = (match h.statOf .followed p with
      | .ok st => .ok st.node
      | .error e => .error (.os e), h) := by
  rw [metadata, Effect.bind_of_ok (refuseNul_of_clean hnul), Effect.bind_of_ok (meetFault_of_nil hf)]
  cases hs : h.statOf .followed p with
  | ok st =>
    have hlook : look (·.statOf .followed p) h = (.ok st, h) := by rw [look, hs]
    rw [Effect.bind_of_ok hlook]
    rfl
  | error e =>
    have hlook : look (·.statOf .followed p) h = (.error (.os e), h) := by rw [look, hs]
    rw [Effect.bind_of_error hlook]

theorem locate_path_of_node (hs : h.tree.IsSound) (hg : h.tree.get? l = some node)
    (hlen : l.path.bytes.length < maxPath) :
    (∀ h', h.Grows h' → h'.tree.HasNoLinks → h'.locate .followed l.path = .ok (.node l)) ∨
      ∀ h', h.Grows h' → h'.tree.HasNoLinks → h'.locate .followed l.path = .error .nameTooLong := by
  have hspell := hs.isSpellable hg
  cases l with
  | nil =>
    refine .inl fun h' _ _ => ?_
    rw [locate_path hlen, Location.steps_path hspell]
    exact Tree.locate_nil
  | cons n l =>
    have hn := hspell n List.mem_cons_self
    have hslash := Location.path_endsInSlash hspell (List.cons_ne_nil n l)
    have hlook : ∀ h' : Host, h'.Looks (Location.path (n :: l)) [] (l.reverse ++ [n]) :=
      fun h' how => by
      rw [locate_path hlen, hslash, Location.steps_path hspell, List.reverse_cons]
    have hd := hs.hasDirs (hs.above n l node hg)
    rcases hd.survey_reverse true hspell.tail with hok | herror
    · have hlast : ∀ h', h.Grows h' → h'.tree.HasNoLinks → h'.Looks (Location.path (n :: l)) l [n] :=
        fun h' hgrows ht' =>
          (hlook h').last ht' ((hgrows.tree.survey_eq (by simp [hok])).trans hok)
      by_cases hlong : maxName < n.length
      · exact .inr fun h' hgrows ht' => (hlast h' hgrows ht').locate_long hn.ne_here hn.ne_up hlong
      · exact .inl fun h' hgrows ht' =>
          (hlast h' hgrows ht').locate_some hn.ne_here hn.ne_up ht' hlong (hgrows.tree _ _ hg)
    · exact .inr fun h' hgrows ht' =>
        (hlook h').locate_error ht' ((hgrows.tree.survey_eq (by simp [herror])).trans herror)

theorem mkdirOrFind_of_hasNul (hnul : p.hasNul = true) : mkdirOrFind p h = (.error .nulInPath, h) := by
  have hm : mkdir p h = (.error .nulInPath, h) := Effect.bind_of_error (refuseNul_of_hasNul hnul)
  rw [mkdirOrFind, Effect.bind_of_ok (Effect.outcome_of_eq hm)]
  rfl

theorem metadata_steady (hs : h.tree.IsSound) (hg : h.tree.get? l = some node) :
    ∃ r : Except IoError Node, ∀ h', h.Grows h' → h'.IsCalm → metadata l.path h' = (r, h') := by
  cases hnul : l.path.hasNul with
  | true =>
    exact ⟨.error .nulInPath, fun h' _ _ => Effect.bind_of_error (refuseNul_of_hasNul hnul)⟩
  | false =>
    have herror : ∀ {h' : Host} {e}, h'.IsCalm → h'.locate .followed l.path = .error e →
        metadata l.path h' = (.error (.os e), h') := by
      intro h' e hcalm hl
      rw [metadata_of_calm hcalm.faults hnul, statOf, hl]
      rfl
    by_cases hlen : l.path.bytes.length < maxPath
    · rcases locate_path_of_node hs hg hlen with hfound | hlong
      · refine ⟨.ok node, fun h' hgrows hcalm => ?_⟩
        rw [metadata_of_calm hcalm.faults hnul,
          statOf_node (hfound h' hgrows hcalm.links) (hgrows.tree _ _ hg)]
      · exact ⟨_, fun h' hgrows hcalm => herror hcalm (hlong h' hgrows hcalm.links)⟩
    · refine ⟨_, fun h' _ hcalm => herror hcalm (e := .nameTooLong) ?_⟩
      rw [locate, if_pos (Nat.le_of_not_lt hlen)]

end

end Host

namespace Rootfs

def home (sharedDir : Path) (sandbox container : String) : Path :=
  (sharedDir.join (.ofString sandbox)).join (.ofString container)

section

variable (sharedDir : Path) {sandbox container : String} {h : Host} {d l : Location} {node : Node}
  {us rest : List Name} (hs : IsOneName sandbox) (hc : IsOneName container)
include hs hc

theorem home_steps : (home sharedDir sandbox container).steps =
    sharedDir.steps ++ [Utf8.ofString sandbox, Utf8.ofString container] := by
  rw [home, Path.ofString, Path.ofString, Path.steps_join _ hc.isEntry.ne_nil hc.isEntry.no_slash,
    Path.steps_join _ hs.isEntry.ne_nil hs.isEntry.no_slash, List.append_assoc]
  rfl

theorem home_isAbsolute : (home sharedDir sandbox container).isAbsolute = sharedDir.isAbsolute :=
  (Path.isAbsolute_join _ hc.isEntry).trans (Path.isAbsolute_join _ hs.isEntry)

omit hs in
theorem home_endsInSlash : (home sharedDir sandbox container).endsInSlash = false :=
  Path.endsInSlash_join _ hc.isEntry.ne_nil hc.isEntry.no_slash

omit hs in
theorem home_ne_nil : (home sharedDir sandbox container).bytes ≠ [] := Path.join_ne_nil _ hc.isEntry

omit hs in
theorem target_bytes : (target sharedDir sandbox container).bytes =
    (home sharedDir sandbox container).bytes ++ slash :: Site.last := by
  change ((home sharedDir sandbox container).join (.ofString dirName)).bytes = _
  have hempty : (home sharedDir sandbox container).isEmpty = false := by
    simpa [Path.isEmpty] using home_ne_nil sharedDir hc
  rw [Path.join, if_neg (by decide), home_endsInSlash sharedDir hc, hempty]
  rfl

theorem target_parents : ∃ ns, (home sharedDir sandbox container).anchored.2 =
      ns ++ [Utf8.ofString container] ∧
    (target sharedDir sandbox container).parents =
      Path.above (home sharedDir sandbox container).anchored.1
        (home sharedDir sandbox container).anchored.2.reverse := by
  obtain ⟨ns, hns⟩ := Path.anchored_join_snoc (Path.join_ne_nil sharedDir hs.isEntry) hc.isEntry
  exact ⟨ns, hns, Path.parents_join_of_name (home_ne_nil sharedDir hc)
    (home_endsInSlash sharedDir hc) isEntry_dirName⟩

theorem mkdirs_of_unfit (hcalm : h.IsCalm) {e : IoError}
    (he : ∀ h' : Host, h'.IsCalm →
      Host.mkdirOrFind (home sharedDir sandbox container) h' = (.error e, h'))
    (hne : e ≠ .os .noEntry) :
    Host.mkdirs (target sharedDir sandbox container).parents h = (.error e, h) := by
  obtain ⟨ns, hns, hparents⟩ := target_parents sharedDir hs hc
  have hempty : (home sharedDir sandbox container).isEmpty = false := by
    simpa [Path.isEmpty] using home_ne_nil sharedDir hc
  rw [hparents, Path.above_anchored hns hc.isEntry.isSilent_eq_false]
  exact Host.mkdirs_of_stop hempty (he h hcalm) (by simpa using hne)

theorem suits_of_starts (hstarts : h.Starts sharedDir.isAbsolute us d) (hd : h.tree.HasDirs d)
    (hsteps : sharedDir.steps = us ++ rest) (hnul : (home sharedDir sandbox container).hasNul = false)
    (hlen : (home sharedDir sandbox container).bytes.length < maxPath) (isDir : Bool) :
    Site.Suits ⟨d, rest, Utf8.ofString sandbox, Utf8.ofString container, isDir,
      decide (maxPath ≤ (target sharedDir sandbox container).bytes.length)⟩ h
      (target sharedDir sandbox container) := by
  obtain ⟨ns, hns, hparents⟩ := target_parents sharedDir hs hc
  have hhome := home_steps sharedDir hs hc
  rw [← home_isAbsolute sharedDir hs hc] at hstarts
  refine ⟨?_, hd, ?_, fun hlong => of_decide_eq_true hlong, fun hshort h' hg how => ?_⟩
  · rw [hparents]
    rw [Path.isAbsolute_eq_anchored] at hstarts
    refine Host.trail_above hstarts (Path.anchored_admits _) ?_ ?_ ?_
    · rwa [Path.ofAnchored_anchored]
    · rwa [Path.ofAnchored_anchored]
    · rw [← Path.steps_eq_anchored, hhome, hsteps, List.append_assoc]
      rfl
  · rw [Path.hasNul, target_bytes sharedDir hc, List.contains_append, Bool.or_eq_false_iff]
    exact ⟨hnul, by decide⟩
  · have hslash := target_endsInSlash sharedDir sandbox container
    rw [← hslash]
    refine hstarts h' hg _ _ (Nat.lt_of_not_le (of_decide_eq_false hshort)) ?_ ?_ ?_ how
    · rw [Path.isEmpty, target_bytes sharedDir hc]
      simp
    · exact Path.isAbsolute_join _ isEntry_dirName
    · have hsteps' : (target sharedDir sandbox container).steps =
          (home sharedDir sandbox container).steps ++ [Site.last] :=
        Path.steps_join _ (by decide) (by decide)
      rw [hsteps', hhome, hsteps]
      simp [Site.names]

/-- A preparation is turned down in every larger tree alike, or its paths can be handed to the calls
and it comes down to them. -/
theorem prepare_unfit_or (ht : h.tree.IsSound) (hl : h.tree.get? l = some node) :
    (∃ e, ∀ h', h.Grows h' → h'.IsCalm →
      Bind.prepare l.path (target sharedDir sandbox container) h' = (.error e, h')) ∨
    (home sharedDir sandbox container).hasNul = false ∧
      (home sharedDir sandbox container).bytes.length < maxPath ∧
      ∃ isDir, ∀ h', h.Grows h' → h'.IsCalm →
        Bind.prepare l.path (target sharedDir sandbox container) h' = (do
          Host.mkdirs (target sharedDir sandbox container).parents
          Bind.finish isDir (target sharedDir sandbox container) : Call Unit) h' := by
  obtain ⟨r, hmeta⟩ := Host.metadata_steady ht hl
  cases r with
  | error e => exact .inl ⟨e, fun h' hg hcalm => Effect.bind_of_error (hmeta h' hg hcalm)⟩
  | ok node =>
    have hprepare : ∀ h', h.Grows h' → h'.IsCalm →
        Bind.prepare l.path (target sharedDir sandbox container) h' = (do
          Host.mkdirs (target sharedDir sandbox container).parents
          Bind.finish node.isDir (target sharedDir sandbox container) : Call Unit) h' :=
      fun h' hg hcalm => Bind.prepare_of_metadata (hmeta h' hg hcalm)
    have hunfit : ∀ {e : IoError}, (∀ h' : Host, h'.IsCalm →
          Host.mkdirOrFind (home sharedDir sandbox container) h' = (.error e, h')) → e ≠ .os .noEntry →
        ∀ h', h.Grows h' → h'.IsCalm →
          Bind.prepare l.path (target sharedDir sandbox container) h' = (.error e, h') := by
      intro e he hne h' hg hcalm
      rw [hprepare h' hg hcalm]
      exact Effect.bind_of_error (mkdirs_of_unfit sharedDir hs hc hcalm he hne)
    cases hnul : (home sharedDir sandbox container).hasNul with
    | true => exact .inl ⟨_, hunfit (fun h' _ => Host.mkdirOrFind_of_hasNul hnul) (by simp)⟩
    | false =>
      by_cases hlen : (home sharedDir sandbox container).bytes.length < maxPath
      · exact .inr ⟨rfl, hlen, node.isDir, hprepare⟩
      · refine .inl ⟨.os .nameTooLong, hunfit (fun h' hcalm => ?_) (by simp)⟩
        refine Host.mkdirOrFind_of_error hcalm.faults hnul ?_
        rw [Host.locate, if_pos (Nat.le_of_not_lt hlen)]

/-- Where the shared directory starts from a directory, what is to be done is done at a site below
it. -/
theorem prepare_placed (ht : h.tree.IsSound) (hstarts : h.Starts sharedDir.isAbsolute us d)
    (hd : h.tree.HasDirs d) (hsteps : sharedDir.steps = us ++ rest) (hl : h.tree.get? l = some node) :
    (∃ e, ∀ h', h.Grows h' → h'.IsCalm →
      Bind.prepare l.path (target sharedDir sandbox container) h' = (.error e, h')) ∨
    ∃ isDir tooLong, ∀ h', h.Grows h' → h'.IsCalm → ∃ r t',
      Bind.prepare l.path (target sharedDir sandbox container) h' = (r, { h' with tree := t' }) ∧
      h'.tree.Filled (Site.gain
        ⟨d, rest, Utf8.ofString sandbox, Utf8.ofString container, isDir, tooLong⟩
        h'.modeOf h'.tree) t' ∧
      Site.Says ⟨d, rest, Utf8.ofString sandbox, Utf8.ofString container, isDir, tooLong⟩
        h'.modeOf h'.tree r := by
  rcases prepare_unfit_or sharedDir hs hc ht hl with hunfit | ⟨hnul, hlen, isDir, hprepare⟩
  · exact .inl hunfit
  · have hsuits := suits_of_starts sharedDir hs hc hstarts hd hsteps hnul hlen isDir
    refine .inr ⟨isDir, decide (maxPath ≤ (target sharedDir sandbox container).bytes.length),
      fun h' hg hcalm => ?_⟩
    rw [hprepare h' hg hcalm]
    exact (hsuits.grows hg).prepare hcalm.faults hcalm.links hc.isEntry

theorem prepare_of_isLost (ht : h.tree.IsSound) (habs : sharedDir.isAbsolute = false)
    (hgone : h.cwdGone = true) (hlost : h.tree.IsLost h.cwd sharedDir.steps)
    (hl : h.tree.get? l = some node) :
    ∃ e, ∀ h', h.Grows h' → h'.tree.Extends h.tree → h'.IsCalm →
      Bind.prepare l.path (target sharedDir sandbox container) h' = (.error e, h') := by
  rcases prepare_unfit_or sharedDir hs hc ht hl with ⟨e, he⟩ | ⟨hnul, hlen, isDir, hprepare⟩
  · exact ⟨e, fun h' hg _ hcalm => he h' hg hcalm⟩
  · obtain ⟨ns, hns, hparents⟩ := target_parents sharedDir hs hc
    refine ⟨.os .noEntry, fun h' hg hback hcalm => ?_⟩
    have hlost' := hlost.of_extends hback
    rw [← hg.cwd] at hlost'
    rw [hprepare h' hg hcalm, hparents]
    exact Effect.bind_of_error <| Host.mkdirs_of_isLost (hg.cwdGone.trans hgone)
      ((home_isAbsolute sharedDir hs hc).trans habs) hlen hnul hcalm.faults hlost'
      (home_steps sharedDir hs hc) hs.isEntry hns hc.isEntry

end

end Rootfs

end SandboxMounts
