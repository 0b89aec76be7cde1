import SandboxMounts.Proofs.Spelling

/-!
The components of paths that are put together or cut short. A name put after a path is one component
more, and what is left of a path when its end is cut off has the components before.
-/

set_option autoImplicit false

namespace SandboxMounts

namespace Bytes

theorem splitWhen_joinWith {x : UInt8} {ss : List Bytes} (hne : ss ≠ [])
    (hss : ∀ s ∈ ss, x ∉ s) : splitWhen (· == x) (joinWith x ss) = ss := by
  have hclean : ∀ s : Bytes, x ∉ s → ∀ b ∈ s, (b == x) = false := fun s hs b hb => by
    have hb' : b ≠ x := fun hc => hs (hc ▸ hb)
    simpa using hb'
  induction ss with
  | nil => exact absurd rfl hne
  | cons s ss ih =>
    have hs := hclean s (hss s List.mem_cons_self)
    cases ss with
    | nil => exact splitWhen_of_clean hs
    | cons u us =>
      have hrest := ih (List.cons_ne_nil u us) fun v hv => hss v (List.mem_cons_of_mem s hv)
      rw [joinWith, splitWhen_append_cons s _ (by simp), splitWhen_of_clean hs, hrest]
      · rfl
      · simp

end Bytes

def Name.components (ns : List Name) : List Component :=
  (ns.filter (!·.isSilent)).map Name.component

def Anchor.components : Anchor → List Component
  | .root => [.root]
  | .here => [.here]
  | .bare => []

def Anchor.segments : Anchor → List Name
  | .root => [[]]
  | .here => [Name.here]
  | .bare => []

def Anchor.ofSegment (s : Name) : Anchor := if s = [] then .root else if s = Name.here then .here else .bare

def Name.afterAnchor (s : Name) (ss : List Name) : List Name :=
  if s = [] ∨ s = Name.here then ss else s :: ss

namespace Name

variable {n : Name} {ns ms : List Name}

theorem components_append (ns ms : List Name) :
    components (ns ++ ms) = components ns ++ components ms := by
  simp [components]

theorem IsEntry.components (hn : n.IsEntry) : Name.components [n] = [.name n] := by
  have hsilent : n.isSilent = false := by simp [isSilent, hn.ne_nil, hn.ne_here]
  simp [Name.components, hsilent, component, hn.ne_up]

theorem components_prefix (h : ns <+: ms) : components ns <+: components ms := by
  obtain ⟨rest, rfl⟩ := h
  rw [components_append]
  exact List.prefix_append _ _

theorem afterAnchor_append (s : Name) (ss : List Name) (n : Name) :
    afterAnchor s (ss ++ [n]) = afterAnchor s ss ++ [n] := by
  unfold afterAnchor
  split <;> rfl

end Name

namespace Path

variable {p q : Path} {s n : Name} {ss ns : List Name}

theorem components_eq (p : Path) :
    p.components = p.anchored.1.components ++ Name.components p.anchored.2 := by
  unfold components
  cases p.anchored.1 <;> rfl

theorem segments_ne_nil (p : Path) : p.segments ≠ [] := Bytes.splitWhen_ne_nil (· == slash) p.bytes

theorem anchored_eq (hs : p.segments = s :: ss) (hss : s = [] → ss ≠ []) :
    p.anchored = (Anchor.ofSegment s, Name.afterAnchor s ss) := by
  unfold anchored Anchor.ofSegment Name.afterAnchor
  rw [hs]
  by_cases hn : s = []
  · simp [hn, hss hn]
  by_cases hh : s = Name.here
  · subst hh
    simp [hn]
  · simp [hn, hh]

theorem components_of_segments (hs : p.segments = s :: ss) (hss : s = [] → ss ≠ []) :
    p.components = (Anchor.ofSegment s).components ++ Name.components (Name.afterAnchor s ss) := by
  rw [components_eq, anchored_eq hs hss]

theorem segments_join (hp : p.bytes ≠ []) (hn : n.IsEntry) :
    ∃ s ss, (p.join ⟨n⟩).segments = s :: (ss ++ [n]) ∧
      (p.segments = s :: ss ∧ (s = [] → ss ≠ []) ∨ p.segments = s :: (ss ++ [[]])) := by
  have hclean := Name.clean_of_no_slash hn.no_slash
  unfold segments
  obtain ⟨bs, hjoin, hp'⟩ := join_of_relative hp (isAbsolute_of_name hn.ne_nil hn.no_slash)
  obtain ⟨s, ss, hs⟩ := List.exists_cons_of_ne_nil (Bytes.splitWhen_ne_nil (· == slash) bs)
  refine ⟨s, ss, by rw [hjoin, Bytes.splitWhen_append bs (by simp) hclean, hs]; rfl, ?_⟩
  rcases hp' with hp' | hp'
  · refine .inl ⟨by rw [hp', hs], fun hnil hss => hp ?_⟩
    have hback := Bytes.joinWith_splitWhen slash bs
    rw [hs, hnil, hss] at hback
    rw [hp', ← hback]
    rfl
  · right
    rw [hp', Bytes.splitWhen_append_cons bs [] (by simp), hs]
    rfl

theorem components_join (p : Path) (hn : n.IsEntry) :
    (p.join ⟨n⟩).components = p.components ++ [.name n] := by
  rw [← hn.components]
  by_cases hp : p.bytes = []
  · obtain rfl : p = ⟨[]⟩ := congrArg Path.mk hp
    have hs : (⟨n⟩ : Path).segments = [n] :=
      Bytes.splitWhen_of_clean (Name.clean_of_no_slash hn.no_slash)
    rw [empty_join, components_of_segments hs fun hc => absurd hc hn.ne_nil]
    simp only [Anchor.ofSegment, Name.afterAnchor, hn.ne_nil, hn.ne_here, or_self, if_false]
    rfl
  obtain ⟨s, ss, hj, ⟨hs, hss⟩ | hs⟩ := segments_join hp hn
  · rw [components_of_segments hj (by simp), components_of_segments hs hss, Name.afterAnchor_append,
      Name.components_append, List.append_assoc]
  · have hsilent : Name.components [([] : Name)] = [] := rfl
    rw [components_of_segments hj (by simp), components_of_segments hs (by simp),
      Name.afterAnchor_append, Name.afterAnchor_append, Name.components_append, Name.components_append,
      hsilent, List.append_nil, List.append_assoc]

/-- A spelling is cut into what its beginning is spelled by, and the names. -/
theorem segments_ofAnchored (a : Anchor) (hne : ns ≠ []) (hns : ∀ n ∈ ns, slash ∉ n) :
    (ofAnchored a ns).segments = a.segments ++ ns := by
  have hcut := Bytes.splitWhen_joinWith hne hns
  cases a with
  | root =>
    rw [ofAnchored, segments, Bytes.splitWhen, if_pos (by simp), hcut]
    rfl
  | here =>
    obtain ⟨m, rest, rfl⟩ := List.exists_cons_of_ne_nil hne
    have hsplit : Bytes.splitWhen (· == slash) ([dot] ++ slash :: Bytes.joinWith slash (m :: rest)) =
        Bytes.splitWhen (· == slash) [dot] ++
          Bytes.splitWhen (· == slash) (Bytes.joinWith slash (m :: rest)) :=
      Bytes.splitWhen_append_cons _ _ (by simp)
    rw [hcut] at hsplit
    exact hsplit
  | bare => exact hcut

theorem components_ofAnchored {a : Anchor} (hne : ns ≠ []) (hns : ∀ n ∈ ns, slash ∉ n)
    (ha : a = .bare → ∀ n rest, ns = n :: rest → n ≠ [] ∧ n ≠ Name.here) :
    (ofAnchored a ns).components = a.components ++ Name.components ns := by
  have hsegments := segments_ofAnchored a hne hns
  obtain ⟨m, rest, rfl⟩ := List.exists_cons_of_ne_nil hne
  cases a with
  | root =>
    have hs : (ofAnchored .root (m :: rest)).segments = [] :: m :: rest := hsegments
    rw [components_of_segments hs (by simp)]
    simp [Anchor.ofSegment, Name.afterAnchor]
  | here =>
    have hs : (ofAnchored .here (m :: rest)).segments = Name.here :: m :: rest := hsegments
    rw [components_of_segments hs (by simp [Name.here])]
    simp [Anchor.ofSegment, Name.afterAnchor, Name.here]
  | bare =>
    obtain ⟨hm, hh⟩ := ha rfl m rest rfl
    have hs : (ofAnchored .bare (m :: rest)).segments = m :: rest := hsegments
    rw [components_of_segments hs fun hc => absurd hc hm]
    simp [Anchor.ofSegment, Name.afterAnchor, hm, hh]

theorem anchored_bare (ha : p.anchored.1 = .bare) :
    ∃ s ss, p.anchored.2 = s :: ss ∧ s ≠ Name.here ∧ (s = [] → ss = []) := by
  obtain ⟨s, ss, hs⟩ := List.exists_cons_of_ne_nil p.segments_ne_nil
  simp only [anchored, hs] at ha ⊢
  by_cases hroot : s = [] ∧ ss ≠ []
  · rw [if_pos hroot] at ha
    cases ha
  by_cases hh : s = Name.here
  · rw [if_neg hroot, if_pos hh] at ha
    cases ha
  · rw [if_neg hroot, if_neg hh]
    exact ⟨s, ss, rfl, hh, fun hn => Classical.not_not.1 fun hss => hroot ⟨hn, hss⟩⟩

theorem slash_notMem_anchored (p : Path) : ∀ n ∈ p.anchored.2, slash ∉ n := by
  have hclean : ∀ n ∈ p.segments, slash ∉ n := fun n hn hc => by
    have := Bytes.splitWhen_clean hn slash hc
    simp at this
  intro n hn
  obtain ⟨s, ss, hs⟩ := List.exists_cons_of_ne_nil p.segments_ne_nil
  rw [hs] at hclean
  simp only [anchored, hs] at hn
  split at hn
  · exact hclean n (List.mem_cons_of_mem s hn)
  split at hn
  · exact hclean n (List.mem_cons_of_mem s hn)
  · exact hclean n hn

/-- Above the spelling of some names are the spellings of the first of them. -/
theorem components_of_mem_above {a : Anchor} (hns : ∀ n ∈ ns, slash ∉ n)
    (ha : a = .bare → ∀ n rest, ns.reverse = n :: rest → n ≠ [] ∧ n ≠ Name.here) (hq : q ∈ above a ns) :
    q.components <+: a.components ++ Name.components ns.reverse := by
  induction ns with
  | nil =>
    cases a with
    | root =>
      obtain rfl := List.mem_singleton.1 hq
      exact List.prefix_rfl
    | here =>
      rcases List.mem_cons.1 hq with rfl | hq
      · exact List.prefix_rfl
      · obtain rfl := List.mem_singleton.1 hq
        exact List.nil_prefix
    | bare =>
      obtain rfl := List.mem_singleton.1 hq
      exact List.nil_prefix
  | cons n ns ih =>
    have hrest : q ∈ above a ns → q.components <+: a.components ++ Name.components (n :: ns).reverse := by
      intro hq
      have hmore : ns.reverse <+: (n :: ns).reverse := by simp
      have hbegins := ih (fun m hm => hns m (List.mem_cons_of_mem n hm))
        (fun hbare m rest hm => ha hbare m (rest ++ [n]) (by simp [hm])) hq
      exact hbegins.trans (List.prefix_append_right_inj _ |>.2 (Name.components_prefix hmore))
    rw [above] at hq
    split at hq
    · exact hrest hq
    rcases List.mem_cons.1 hq with rfl | hq
    · have hself := components_ofAnchored (by simp) (fun m hm => hns m (List.mem_reverse.1 hm)) ha
      exact ⟨[], by rw [hself, List.append_nil]⟩
    · exact hrest hq

theorem components_of_mem_parents (hq : q ∈ p.parents) : q.components <+: p.components := by
  rw [components_eq p]
  unfold parents at hq
  split at hq
  · split at hq
    · obtain rfl := List.mem_singleton.1 hq
      exact List.nil_prefix
    · cases hq
  · rename_i last above hdrop
    have hsuffix : last :: above <:+ p.anchored.2.reverse := by
      rw [← hdrop]
      exact List.dropWhile_suffix _
    have hbegins : above.reverse <+: p.anchored.2 := by
      have habove := (List.suffix_cons last above).trans hsuffix
      simpa using List.reverse_prefix.2 habove
    have hq' := components_of_mem_above
      (fun n hn => p.slash_notMem_anchored n (hbegins.subset (List.mem_reverse.2 hn)))
      (fun hbare n rest hn => ?_) hq
    · exact hq'.trans (List.prefix_append_right_inj _ |>.2 (Name.components_prefix hbegins))
    · obtain ⟨s, ss, hs, hh, hnil⟩ := anchored_bare hbare
      rw [hn, hs] at hbegins
      obtain ⟨rfl, -⟩ := List.cons_prefix_cons.1 hbegins
      refine ⟨fun hc => ?_, hh⟩
      -- a first segment that is empty would be the only one, and there is one more at the end
      have hlen : (last :: above).length ≤ 1 := by simpa [hs, hnil hc] using hsuffix.length_le
      have habove : above.length = (n :: rest).length := by rw [← hn, List.length_reverse]
      rw [List.length_cons, habove, List.length_cons] at hlen
      omega

end Path

end SandboxMounts
