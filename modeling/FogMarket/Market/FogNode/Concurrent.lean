import FogMarket.Market.FogNode.Settled

open Transition Hierarchy
open scoped List

namespace Market.FogNode

variable {ι : Type*} {nodes₀ nodes nodes' : FogNode} {regs : ι → Registration} {r : Registration}
variable {p p' : Progress} {i : ι} {root x : NodeId} {rank : NodeId → ℕ} {s s' : Registering ι}

section Cost

variable [Fintype ι]

-- The children of a node once all calls have returned, up to their order.
noncomputable def plan (nodes₀ : FogNode) (regs : ι → Registration) (x : NodeId) : List NodeId :=
  nodes₀.children x ++ (Finset.univ.toList.filter fun i => (regs i).parent = x).map fun i => (regs i).child

theorem ranked_plan (h : nodes₀.Acyclic) (t : nodes₀.IsTree) (pl : Plans nodes₀ regs) :
    ∃ rank, Ranked (plan nodes₀ regs) rank := by
  have ⟨rank, hr⟩ := h
  refine ⟨fun x => if x ∈ nodes₀ then rank x + 1 else 0, fun x c hc => ?_⟩
  simp only [plan, List.mem_append, List.mem_map, List.mem_filter, decide_eq_true_eq] at hc
  rcases hc with hc | ⟨i, ⟨_, rfl⟩, rfl⟩
  · simpa [mem_of_mem_children hc, (t.listed hc).1] using hr x c hc
  · simp [pl.parents i, pl.new i]

theorem Extends.children_subperm_plan (h : Extends nodes₀ regs s) (x : NodeId) :
    s.nodes.children x <+~ plan nodes₀ regs x := by
  by_cases hx : x ∈ nodes₀
  case neg => simp [h.children_nil hx, List.nil_subperm]
  case pos =>
    have ⟨l, hl, hd, hm⟩ := h.children hx
    rw [hl, plan, List.subperm_append_left]
    refine List.subperm_of_subset hd fun c hc => ?_
    have ⟨i, _, hp, he⟩ := (hm c).mp hc
    exact List.mem_map.mpr ⟨i, by simpa using hp, he⟩

-- What a traversal pays for a node and for what is going to be below it: one access for the node
-- itself, and two for each child, with the ends of the two loops.
noncomputable def span (h : Ranked (plan nodes₀ regs) rank) : NodeId → ℕ :=
  weight h fun x => 2 * (plan nodes₀ regs x).length + 3

-- The accesses which are left to a call.
def Progress.cost (span : NodeId → ℕ) (root : NodeId) : Progress → ℕ
  | .push   => span root + 4
  | .insert => span root + 3
  | .roots  => span root + 2
  | .pop stack => (stack.map span).sum + 1
  | .contains _ rest children stack =>
    rest.length + children.length + (children.map span).sum + (stack.map span).sum + 3
  | .parents _ rest children stack =>
    rest.length + (children.map span).sum + (stack.map span).sum + 2
  | _ => 0

theorem sum_le_of_subperm {l l' : List NodeId} {f : NodeId → ℕ} (h : l <+~ l') :
    (l.map f).sum ≤ (l'.map f).sum := by
  have ⟨k, hp, hs⟩ := h
  rw [← (hp.map f).sum_eq]
  exact (hs.map f).sum_le_sum fun _ _ => Nat.zero_le _

theorem Advances.cost (a : Advances nodes r p nodes' p') (hr : Ranked (plan nodes₀ regs) rank)
    (hc : ∀ x, nodes.children x <+~ plan nodes₀ regs x) (hroot : nodes.roots = {root}) :
    p'.cost (span hr) root < p.cost (span hr) root := by
  cases a
  case roots root' h =>
    cases Finset.singleton_inj.mp (h.symm.trans hroot)
    simp [Progress.cost]
  case pop id stack h =>
    have hs : span hr id = 2 * (plan nodes₀ regs id).length + 3 +
        ((plan nodes₀ regs id).map (span hr)).sum := weight_eq hr id
    have hl := (hc id).length_le
    have hw := sum_le_of_subperm (f := span hr) (hc id)
    simp only [Progress.cost, List.map_cons, List.sum_cons, hs]
    omega
  all_goals
    simp only [Progress.cost, List.map_nil, List.sum_nil, List.length_nil, List.length_cons,
      List.map_append, List.map_reverse, List.sum_append, List.sum_reverse]
    omega

noncomputable def Registering.cost (s : Registering ι) (span : NodeId → ℕ) (root : NodeId) : ℕ :=
  ∑ i, (s.progress i).cost span root

end Cost

-- A call which has not returned can go on.
theorem exists_advance (nodes : FogNode) (r : Registration) (h : ¬p.Returned) :
    ∃ nodes' p', advance nodes r p = some (nodes', p') := by
  cases p
  case done outcome => exact absurd ⟨outcome, rfl⟩ h
  case pop stack =>
    cases stack <;> simp only [advance] <;> (repeat' split) <;> exact ⟨_, _, rfl⟩
  case contains id rest children stack =>
    cases rest <;> simp only [advance] <;> (repeat' split) <;> exact ⟨_, _, rfl⟩
  case parents id rest children stack =>
    cases rest <;> simp only [advance] <;> (repeat' split) <;> exact ⟨_, _, rfl⟩
  all_goals
    simp only [advance]
    repeat' split
    all_goals exact ⟨_, _, rfl⟩

-- All calls are where they are when nothing has disturbed them.
structure Undisturbed (nodes₀ : FogNode) (regs : ι → Registration) (s : Registering ι) : Prop where
  written : Extends nodes₀ regs s
  fine    : ∀ i, (s.progress i).Fine s.nodes

namespace Undisturbed

variable [DecidableEq ι]

omit [DecidableEq ι] in
theorem start : Undisturbed nodes₀ regs (.start nodes₀) where
  written := .start
  fine _  := trivial

theorem advances (h : Undisturbed nodes₀ regs s) (t : nodes₀.IsTree) (pl : Plans nodes₀ regs)
    (hs : Settled regs s i) (e : Registering.step regs s i = some s') :
    ∃ nodes' p', Advances s.nodes (regs i) (s.progress i) nodes' p' ∧
      s' = { nodes := nodes', progress := Function.update s.progress i p' } := by
  have ⟨⟨nodes', p'⟩, e, he⟩ := Option.map_eq_some_iff.mp e
  exact ⟨nodes', p', FogNode.advances t pl h.written (h.fine i) hs e, he.symm⟩

theorem step (h : Undisturbed nodes₀ regs s) (t : nodes₀.IsTree) (pl : Plans nodes₀ regs)
    (hs : Settled regs s i) (e : Registering.step regs s i = some s') : Undisturbed nodes₀ regs s' := by
  have ⟨nodes', p', a, he⟩ := h.advances t pl hs e
  subst he
  refine ⟨a.extends pl h.written rfl, fun j => ?_⟩
  by_cases hj : j = i
  case pos =>
    subst hj
    simpa using a.fine (h.fine j)
  case neg =>
    simpa [hj] using (h.fine j).mono (fun x => a.mem) (a.children pl h.written)

theorem cost_lt [Fintype ι] (h : Undisturbed nodes₀ regs s) (t : nodes₀.IsTree)
    (pl : Plans nodes₀ regs) (hr : Ranked (plan nodes₀ regs) rank) (hroot : nodes₀.roots = {root})
    (hs : Settled regs s i) (e : Registering.step regs s i = some s') :
    s'.cost (span hr) root < s.cost (span hr) root := by
  have ⟨nodes', p', a, he⟩ := h.advances t pl hs e
  have hlt := a.cost hr h.written.children_subperm_plan (h.written.roots_eq.trans hroot)
  subst he
  refine Finset.sum_lt_sum (fun j _ => ?_) ⟨i, Finset.mem_univ i, by simpa using hlt⟩
  by_cases hj : j = i
  case pos =>
    subst hj
    simpa using hlt.le
  case neg => simp [hj]

-- If no child is awaited then any call may go on, and otherwise its own registration may.
theorem exists_step (h : ∃ i, ¬(s.progress i).Returned) :
    ∃ i s', Settled regs s i ∧ Registering.step regs s i = some s' := by
  have hstep {i} (hi : ¬(s.progress i).Returned) : ∃ s', Registering.step regs s i = some s' := by
    obtain ⟨_, _, e⟩ := exists_advance s.nodes (regs i) hi
    exact ⟨_, by simp only [Registering.step, e]; rfl⟩
  by_cases hw : ∃ j, s.progress j = .insert
  case pos =>
    obtain ⟨j, hj⟩ := hw
    obtain ⟨s', e⟩ := hstep (i := j) (by simp [hj, Progress.Returned])
    exact ⟨j, s', by simp [Settled, hj], e⟩
  case neg =>
    obtain ⟨i, hi⟩ := h
    obtain ⟨s', e⟩ := hstep hi
    refine ⟨i, s', ?_, e⟩
    simp only [Settled]
    split
    case h_1 => exact fun j _ hj => hw ⟨j, hj⟩
    case h_2 => trivial

omit [DecidableEq ι] in
theorem ok_of_returned (h : Undisturbed nodes₀ regs s) {outcome : Outcome}
    (hd : s.progress i = .done outcome) : outcome = .ok := by
  have hf := h.fine i
  cases outcome <;> simp_all [Progress.Fine]

end Undisturbed

-- A call which is bound to fail stays so, whatever the others do.
theorem doomed_step [DecidableEq ι] {j : ι} (h : (s.progress j).Doomed)
    (e : Registering.step regs s i = some s') : (s'.progress j).Doomed := by
  have ⟨⟨nodes', p'⟩, ha, he⟩ := Option.map_eq_some_iff.mp e
  subst he
  by_cases hj : j = i
  case pos =>
    subst hj
    simpa using doomed_advance h ha
  case neg => simpa [hj] using h

-- Either nothing has been disturbed, or some call fails.
theorem run_settled_or_doomed [DecidableEq ι] {as : List ι} (t : nodes₀.IsTree)
    (pl : Plans nodes₀ regs) (h : Undisturbed nodes₀ regs s)
    (r : Run (Registering.step regs) free s as s') :
    Run (Registering.step regs) (Settled regs) s as s' ∨ ∃ i, (s'.progress i).Doomed := by
  induction r
  case refl => exact .inl .refl
  case trans s₁ s₂ s₃ i as _ e r hi =>
    by_cases hs : Settled regs s₁ i
    case pos => exact (hi (h.step t pl hs e)).imp_left (.trans hs e)
    case neg =>
      have ⟨⟨nodes', p'⟩, ha, he⟩ := Option.map_eq_some_iff.mp e
      have hd : (s₂.progress i).Doomed := by
        subst he
        simpa using doomed_of_not_settled pl h.written hs ha
      exact .inr ⟨i, r.invariant hd fun hd _ e => doomed_step hd e⟩

-- As long as no call looks up a child which another call has pushed but not yet inserted, the calls
-- go on until all of them have been answered, and none fails. Conversely, if all of them succeed then
-- this has not happened.
theorem registered_iff_settled [Fintype ι] [DecidableEq ι] {rs : List Request}
    (h : Run step free ∅ rs nodes₀) (t : nodes₀.IsTree) (pl : Plans nodes₀ regs) :
    (∃ n, ∀ as s, Run (Registering.step regs) (Settled regs) (.start nodes₀) as s →
      as.length ≤ n ∧ (∀ i, ¬(s.progress i).Doomed) ∧
        ((∃ i, ¬(s.progress i).Returned) → ∃ i s', Settled regs s i ∧ Registering.step regs s i = some s')) ∧
    ∀ as s, Run (Registering.step regs) free (.start nodes₀) as s → (∀ i, (s.progress i).Returned) →
      (((∀ i, s.progress i = .done .ok) ∧ Registered nodes₀ regs s.nodes) ↔
        Run (Registering.step regs) (Settled regs) (.start nodes₀) as s) := by
  obtain ⟨rank, hr⟩ := ranked_plan (acyclic_of_run acyclic_empty h) t pl
  obtain ⟨root, hroot, _⟩ := t.accepted
  have hinv {as s} (r : Run (Registering.step regs) (Settled regs) (.start nodes₀) as s) :
      Undisturbed nodes₀ regs s := r.invariant .start fun h hs e => h.step t pl hs e
  constructor
  case left =>
    let measure (s : Registering ι) : ℕ := s.cost (span hr) root
    refine ⟨measure (.start nodes₀), fun as s r => ⟨?_, ?_, ?_⟩⟩
    · have hl : as.length + measure s ≤ measure (.start nodes₀) :=
        r.length_le (I := Undisturbed nodes₀ regs) .start (fun h hs e => h.step t pl hs e)
          fun h hs e => h.cost_lt t pl hr hroot hs e
      exact Nat.le_of_add_right_le hl
    · exact fun i => ((hinv r).fine i).not_doomed
    · exact Undisturbed.exists_step
  case right =>
    intro as s r hd
    constructor
    case mp =>
      rintro ⟨hok, _⟩
      refine (run_settled_or_doomed t pl .start r).resolve_right ?_
      rintro ⟨i, hi⟩
      simp [hok, Progress.Doomed] at hi
    case mpr =>
      intro r
      have hok i : s.progress i = .done .ok := by
        obtain ⟨outcome, ho⟩ := hd i
        exact (hinv r).ok_of_returned ho ▸ ho
      exact ⟨hok, (hinv r).written.registered t pl hok⟩

def single : FogNode :=
  (∅ : FogNode).insert ⟨1⟩ (fresh none (.new (.v4 0) 80 8080 []))

theorem run_single : Run step free ∅ [.ofRoot 1] single := by
  have ⟨nodes, r⟩ : ∃ s, Run step free ∅ [.ofRoot 1] s := Run.of_exec_isSome (by decide +kernel)
  have h := r
  cases h
  case trans e h =>
    cases h
    have hs : appendRoot 8 ∅ ⟨1⟩ (.v4 0) 80 8080 [] = some (.ok, nodes) := (founds_of_step rfl e).2
    rcases appendRoot_spec hs with ⟨_, _, rfl⟩ | ⟨⟨x, hx, _⟩, _⟩
    · exact r
    · exact absurd hx Finmap.notMem_empty

theorem isTree_single : single.IsTree := by
  cases run_single
  case trans e h =>
    cases h
    exact (founds_of_step rfl e).isTree

-- Two children of the only node.
def siblings (i : Fin 2) : Registration where
  parent   := ⟨1⟩
  child    := match i with | 0 => ⟨2⟩ | 1 => ⟨3⟩
  ip       := .v4 0
  portHttp := 80
  portFaas := 8080
  tags     := []

theorem plans_siblings : Plans single siblings where
  distinct := by decide
  new      := by decide +kernel
  parents  := by decide +kernel

theorem registered_iff_settled_of_siblings :
    ∃ as s, Run (Registering.step siblings) (Settled siblings) (.start single) as s ∧
      (∀ i, s.progress i = .done .ok) ∧ Registered single siblings s.nodes := by
  have ⟨s, r, hd⟩ : ∃ s, Run (Registering.step siblings) (Settled siblings) (.start single)
      ([0, 1, 1, 0, 0, 1] ++ .replicate 14 0 ++ .replicate 14 1) s ∧
      ∀ i, s.progress i = .done .ok :=
    Run.of_exec_any (by decide +kernel)
  have h := registered_iff_settled run_single isTree_single plans_siblings
  exact ⟨_, s, r, (h.2 _ s r.toFree fun i => ⟨.ok, hd i⟩).mpr r⟩

-- The first call finds that the child of the second one is missing, and drops it from the children of
-- the parent instead of its own. The second call then finds that the child of the first one is missing.
theorem not_registered_of_siblings :
    Run step free ∅ [.ofRoot 1] single ∧ single.IsTree ∧ Plans single siblings ∧
    ∃ s, Run (Registering.step siblings) free (.start single) [1, 0, 0, 0, 0, 0, 0, 0, 0, 1, 1, 1, 1, 1] s ∧
      s.progress 0 = .done (.err (.missingChild ⟨1⟩ ⟨3⟩)) ∧
      s.progress 1 = .done (.err (.unlistedChild ⟨1⟩ ⟨3⟩)) ∧
      ⟨2⟩ ∉ s.nodes ∧ s.nodes.children ⟨1⟩ = [⟨2⟩] ∧ s.nodes.parent ⟨3⟩ = some ⟨1⟩ :=
  ⟨run_single, isTree_single, plans_siblings, Run.of_exec_any (by decide +kernel)⟩

end Market.FogNode
