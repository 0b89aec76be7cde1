import Mathlib.Algebra.GroupWithZero.Nat
import Mathlib.Data.List.Forall2
import SandboxMounts.Proofs.Operations

/-!
Runs of operations in any order. Between two of them the host may change as it likes but for its
mounts. Each mount is traced back to the operation that made it by the calls on record.
-/

set_option autoImplicit false

namespace SandboxMounts

structure Done where
  operation : Operation
  outcome : Except Error Unit
  calls : List MountCall

def Operation.done (o : Operation) (h : Host) : Done :=
  ⟨o, (o.run h).1, (o.run h).2.calls.drop h.calls.length⟩

namespace Done

def succeeded (d : Done) : Bool :=
  match d.outcome with
  | .ok () => true
  | .error _ => false

/-- A step after the bind itself failed, and the detach that was to undo the bind failed as well. -/
def leaked (d : Done) : Bool :=
  match d.outcome, d.calls.getLast? with
  | .error (.mount step _ _ _), some ⟨.detach, _, some _⟩ => step != .bind
  | _, _ => false

def asksAt (d : Done) (t : Path) : Bool := d.operation.asked?.any (·.1 = t)

def detached (d : Done) (t : Path) : Nat :=
  if d.operation.asked?.isSome then 0 else d.calls.count ⟨.detach, t, none⟩

end Done

/-- The runs that begin without mounts: operations one after another, and the world in between. -/
inductive MountHistory : List Done → Host → Prop where
  | start {h : Host} (hm : h.mounts = []) : MountHistory [] h
  | meanwhile {hist : List Done} {h h' : Host} (hh : MountHistory hist h)
    (hm : h'.mounts = h.mounts) : MountHistory hist h'
  | operation {hist : List Done} {h : Host} (hh : MountHistory hist h) (o : Operation)
    (ho : o.ReleasesDetach) : MountHistory (hist ++ [o.done h]) (o.run h).2

structure Owner where
  target : Path
  maker : Done

def ownersAfter (d : Done) (os : List Owner) (c : MountCall) : List Owner :=
  match c.errno, c.request with
  | none, .bind _ => ⟨c.target, d⟩ :: os
  | none, .detach => os.eraseP (·.target = c.target)
  | _, _ => os

def owners (hist : List Done) : List Owner :=
  hist.foldl (fun os d => d.calls.foldl (ownersAfter d) os) []

def Mount.IsAsAskedOf (m : Mount) (d : Done) : Prop :=
  d.succeeded ∧ d.operation.asked? = some (m.target, m.readOnly) ∧ m.isPrivate

theorem Operation.done_eq {o : Operation} {h h' : Host} {r : Except Error Unit}
    {calls : List MountCall} (hr : o.run h = (r, h')) (hc : h'.calls = h.calls ++ calls) :
    o.done h = ⟨o, r, calls⟩ := by
  simp [done, hr, hc]

/-- What a bind adds: nothing, or one mount that it owns, as asked for or leaked. -/
theorem Bind.Ran.adds {t : Path} {readOnly : Bool} {ms ms' : List Mount} {r : Except Error Unit}
    {calls : List MountCall} (hran : Ran t readOnly ms r calls ms') (o : Operation)
    (os : List Owner) :
    let d : Done := ⟨o, r, calls⟩
    (ms' = ms ∧ calls.foldl (ownersAfter d) os = os ∧ d.succeeded = false ∧ d.leaked = false) ∨
    ∃ m, ms' = m :: ms ∧ calls.foldl (ownersAfter d) os = ⟨t, d⟩ :: os ∧ m.target = t ∧
      (d.succeeded ∧ d.leaked = false ∧ m.isPrivate ∧ m.readOnly = readOnly ∨
        d.succeeded = false ∧ d.leaked) := by
  intro d
  cases hran with
  | stopped e he =>
    refine .inl ⟨rfl, rfl, rfl, ?_⟩
    cases e <;> rfl
  | ended source hend =>
    cases hend with
    | complete =>
      refine .inr ⟨_, rfl, ?_, rfl, .inl ⟨rfl, rfl, rfl, rfl⟩⟩
      cases readOnly <;> rfl
    | refused e => exact .inl ⟨rfl, rfl, rfl, rfl⟩
    | undone before later step e hs =>
      rcases steps_split hs with ⟨rfl, rfl⟩ | ⟨rfl, rfl⟩
      · exact .inl ⟨rfl, by simp [ownersAfter, Bind.succeeded, failed, BindStep.request], rfl, rfl⟩
      · exact .inl ⟨rfl, by simp [ownersAfter, Bind.succeeded, failed, BindStep.request], rfl, rfl⟩
    | leftBehind before later step e e' hs =>
      rcases steps_split hs with ⟨rfl, rfl⟩ | ⟨rfl, rfl⟩
      · exact .inr ⟨_, rfl, rfl, rfl, .inr ⟨rfl, rfl⟩⟩
      · exact .inr ⟨_, rfl, rfl, rfl, .inr ⟨rfl, rfl⟩⟩

section

variable {R : Mount → Owner → Prop} {ms ms' : List Mount} {os : List Owner} {t : Path}

theorem forall₂_detach (hR : ∀ m o, R m o → m.target = o.target) (hf : List.Forall₂ R ms os)
    (hd : Host.mountsAfter? .detach t ms = some ms') :
    List.Forall₂ R ms' (os.eraseP (·.target = t)) := by
  change Host.editNewest? t (fun _ => []) ms = some ms' at hd
  induction hf generalizing ms' with
  | nil => cases hd
  | @cons m o ms os hmo hf ih =>
    have ht := hR m o hmo
    by_cases hm : m.target = t
    · rw [Host.editNewest?_cons_self _ ms hm] at hd
      cases hd
      simpa [← ht, hm] using hf
    · simp only [Host.editNewest?, hm, if_false, Option.map_eq_some_iff] at hd
      obtain ⟨ms₁, hd, rfl⟩ := hd
      have ho : ¬ o.target = t := by rwa [← ht]
      simpa [ho] using List.Forall₂.cons hmo (ih hd)

theorem countP_detach (u : Path) (hd : Host.mountsAfter? .detach t ms = some ms') :
    ms.countP (·.target = u) = ms'.countP (·.target = u) + if t = u then 1 else 0 := by
  change Host.editNewest? t (fun _ => []) ms = some ms' at hd
  induction ms generalizing ms' with
  | nil => cases hd
  | cons m ms ih =>
    by_cases hm : m.target = t
    · rw [Host.editNewest?_cons_self _ ms hm] at hd
      cases hd
      simp [List.countP_cons, hm]
    · simp only [Host.editNewest?, hm, if_false, Option.map_eq_some_iff] at hd
      obtain ⟨ms₁, hd, rfl⟩ := hd
      simp only [List.countP_cons, ih hd]
      omega

theorem replay?_detaches (hR : ∀ m o, R m o → m.target = o.target) (hf : List.Forall₂ R ms os)
    (d : Done) {calls : List MountCall} (hc : ∀ c ∈ calls, c.request = .detach)
    (hr : replay? calls ms = some ms') :
    List.Forall₂ R ms' (calls.foldl (ownersAfter d) os) ∧
      ∀ u, ms.countP (·.target = u) =
        ms'.countP (·.target = u) + calls.count ⟨.detach, u, none⟩ := by
  induction calls generalizing ms os with
  | nil =>
    cases hr
    exact ⟨hf, by simp⟩
  | cons c calls ih =>
    obtain ⟨request, target, errno⟩ := c
    obtain rfl : request = .detach := hc _ List.mem_cons_self
    have hrest := fun c hm => hc c (List.mem_cons_of_mem _ hm)
    rw [replay?_cons] at hr
    obtain ⟨ms₁, ha, hrest'⟩ := Option.bind_eq_some_iff.1 hr
    cases errno with
    | some e =>
      cases ha
      obtain ⟨hf', hcount⟩ := ih hf hrest hrest'
      refine ⟨hf', fun u => ?_⟩
      rw [hcount u, List.count_cons_of_ne (by simp)]
    | none =>
      obtain ⟨hf', hcount⟩ := ih (forall₂_detach hR hf ha) hrest hrest'
      refine ⟨hf', fun u => ?_⟩
      rw [countP_detach u ha, hcount u, List.count_cons]
      simp only [beq_iff_eq, MountCall.mk.injEq, true_and, and_true]
      omega

end

/-- The owner made the mount, and as it was asked to, unless it leaked it. -/
structure Mount.IsOwnedBy (m : Mount) (hist : List Done) (o : Owner) : Prop where
  target : m.target = o.target
  maker : o.maker ∈ hist
  asked : m.IsAsAskedOf o.maker ∨ o.maker.leaked

/-- At each target there are as many mounts as were made and leaked there, less those detached. -/
def Balanced (hist : List Done) (ms : List Mount) : Prop :=
  ∀ t, ms.countP (·.target = t) + (hist.map (·.detached t)).sum =
    hist.countP (fun d => d.asksAt t && d.succeeded) +
      hist.countP (fun d => d.asksAt t && d.leaked)

theorem owners_append (hist : List Done) (d : Done) :
    owners (hist ++ [d]) = d.calls.foldl (ownersAfter d) (owners hist) := by
  simp [owners]

section

variable {hist : List Done} {ms ms' : List Mount} {os : List Owner}

theorem forall₂_isOwnedBy_append (hf : List.Forall₂ (Mount.IsOwnedBy · hist ·) ms os) (d : Done) :
    List.Forall₂ (Mount.IsOwnedBy · (hist ++ [d]) ·) ms os :=
  hf.imp fun _ _ h => ⟨h.target, List.mem_append_left _ h.maker, h.asked⟩

theorem Balanced.append {d : Done} (hb : Balanced hist ms)
    (hd : ∀ t, ms'.countP (·.target = t) + d.detached t = ms.countP (·.target = t) +
      ((d.asksAt t && d.succeeded).toNat + (d.asksAt t && d.leaked).toNat)) :
    Balanced (hist ++ [d]) ms' := by
  intro t
  have h₁ := hb t
  have h₂ := hd t
  simp only [List.map_append, List.sum_append, List.countP_append, List.map_cons, List.map_nil,
    List.sum_cons, List.sum_nil, List.countP_singleton]
  cases hs : (d.asksAt t && d.succeeded) <;> cases hl : (d.asksAt t && d.leaked) <;>
    simp only [hs, hl, Bool.toNat_true, Bool.toNat_false, if_true, Bool.false_eq_true, if_false]
      at h₂ ⊢ <;> omega

theorem Bind.Ran.balance {t : Path} {readOnly : Bool} {r : Except Error Unit}
    {calls : List MountCall} (hran : Ran t readOnly ms r calls ms') {o : Operation}
    (ha : o.asked? = some (t, readOnly)) (hf : List.Forall₂ (Mount.IsOwnedBy · hist ·) ms os)
    (hb : Balanced hist ms) :
    let d : Done := ⟨o, r, calls⟩
    List.Forall₂ (Mount.IsOwnedBy · (hist ++ [d]) ·) ms' (calls.foldl (ownersAfter d) os) ∧
      Balanced (hist ++ [d]) ms' := by
  intro d
  have hf' := forall₂_isOwnedBy_append hf d
  have hdet : ∀ u, d.detached u = 0 := fun u => by simp [d, Done.detached, ha]
  have hasks : ∀ u, d.asksAt u = decide (t = u) := fun u => by simp [d, Done.asksAt, ha]
  rcases hran.adds o os with ⟨rfl, hos, hs, hl⟩ | ⟨m, rfl, hos, hm, hkind⟩
  · rw [hos]
    refine ⟨hf', hb.append fun u => ?_⟩
    simp [d, hdet, hs, hl]
  · rw [hos]
    refine ⟨.cons ⟨hm, by simp [d], ?_⟩ hf', hb.append fun u => ?_⟩
    · rcases hkind with ⟨hs, -, hp, hro⟩ | ⟨-, hl⟩
      · exact .inl ⟨hs, by rw [hm, hro]; exact ha, hp⟩
      · exact .inr hl
    · rw [hdet, hasks, List.countP_cons, hm]
      rcases hkind with ⟨hs, hl, -, -⟩ | ⟨hs, hl⟩ <;> by_cases hu : t = u <;> simp [d, hs, hl, hu]

theorem detaches_balance {o : Operation} {r : Except Error Unit} {calls : List MountCall}
    (ha : o.asked? = none) (hc : ∀ c ∈ calls, c.request = .detach)
    (hr : replay? calls ms = some ms') (hf : List.Forall₂ (Mount.IsOwnedBy · hist ·) ms os)
    (hb : Balanced hist ms) :
    let d : Done := ⟨o, r, calls⟩
    List.Forall₂ (Mount.IsOwnedBy · (hist ++ [d]) ·) ms' (calls.foldl (ownersAfter d) os) ∧
      Balanced (hist ++ [d]) ms' := by
  intro d
  obtain ⟨hf', hcount⟩ :=
    replay?_detaches (fun _ _ h => h.target) (forall₂_isOwnedBy_append hf d) d hc hr
  refine ⟨hf', hb.append fun u => ?_⟩
  have hdet : d.detached u = calls.count ⟨.detach, u, none⟩ := by simp [d, Done.detached, ha]
  have hasks : d.asksAt u = false := by simp [d, Done.asksAt, ha]
  rw [hcount u, hdet, hasks]
  simp

end

/-- In every state between operations each mount is private and read-only as the operation that made
it was asked, unless that operation leaked it, and their number at each target is in balance. -/
theorem mounts_of_history {hist : List Done} {h : Host} (hh : MountHistory hist h) :
    List.Forall₂ (Mount.IsOwnedBy · hist ·) h.mounts (owners hist) ∧ Balanced hist h.mounts := by
  induction hh with
  | start hm => simp [hm, owners, Balanced]
  | meanwhile _ hm ih => rwa [hm]
  | @operation hist h hh o ho ih =>
    obtain ⟨hf, hb⟩ := ih
    rw [owners_append]
    cases ha : o.asked? with
    | none =>
      obtain ⟨calls, hc, hdet, hr⟩ := Operation.run_unasked ha ho h
      have hd : o.done h = ⟨o, (o.run h).1, calls⟩ := Operation.done_eq rfl hc
      rw [hd]
      exact detaches_balance ha hdet hr hf hb
    | some asked =>
      obtain ⟨t, readOnly⟩ := asked
      obtain ⟨r, h', calls, hr, hc, hran⟩ := Operation.run_asked ha h
      rw [Operation.done_eq hr hc, hr]
      exact hran.balance ha hf hb

def Host.leaky : Host :=
  { Host.initial with
    tree := ⟨[([[0x73]], .dir 0o755)]⟩
    faults := [⟨.makePrivate, none, .busy, some 1⟩, ⟨.unmount, none, .busy, some 1⟩] }

theorem mounts_of_history_leaked :
    ∃ hist h, MountHistory hist h ∧ hist.map (·.leaked) = [true, false, false, false] ∧
      h.mounts = [⟨⟨[slash, 0x73]⟩, ⟨[slash, 0x64]⟩, true, true⟩,
        ⟨⟨[slash, 0x73]⟩, ⟨[slash, 0x64]⟩, false, false⟩] ∧
      List.Forall₂ (Mount.IsOwnedBy · hist ·) h.mounts (owners hist) ∧ Balanced hist h.mounts := by
  have hrelease : (Operation.tearDown ⟨[slash]⟩ "b" [⟨"c", "", pure (.ok ())⟩]).ReleasesDetach := by
    intro c hc h
    obtain rfl := List.mem_singleton.1 hc
    exact refl_of Detaches h
  have hh := (MountHistory.start (rfl : Host.leaky.mounts = [])).operation
    (.bind ⟨[slash, 0x73]⟩ ⟨[slash, 0x64]⟩ false) trivial
  have hh := hh.operation (.bind ⟨[slash, 0x73]⟩ ⟨[slash, 0x64]⟩ true) trivial
  have hh := hh.operation (.share ⟨[slash]⟩ "b" "c" ⟨[slash, 0x73]⟩ false) trivial
  have hh := hh.operation _ hrelease
  exact ⟨_, _, hh, by decide, by decide, mounts_of_history hh⟩

end SandboxMounts
