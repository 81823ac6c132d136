import FogMarket.Market.FogNode.Rollback

open Transition

namespace Market.FogNode

variable {nodes nodes' : FogNode} {node : Node NodeRecord} {record : NodeRecord} {r r' : Request} {rs : List Request}
variable {id root parent child x : NodeId} {outcome : Outcome} {fuel : ℕ} {call : Call}

def Succeeds (nodes : FogNode) (r : Request) : Prop :=
  (nodes.serve r.fuel r.call).map (·.1) = some .ok

instance : Decidable (nodes.Succeeds r) :=
  inferInstanceAs (Decidable ((nodes.serve r.fuel r.call).map (·.1) = some .ok))

-- What the call writes is there already. The children of a parent never qualify, because the child is
-- added to them once more, unless the parent is the child itself, and its entry is written next.
def Idle (nodes : FogNode) : Call → Prop
  | .appendRoot root ip portHttp portFaas tags =>
    nodes.lookup root = some (fresh none (.new ip portHttp portFaas tags))
  | .appendNewChild parent child ip portHttp portFaas tags =>
    parent = child ∧ nodes.lookup child = some (fresh (some parent) (.new ip portHttp portFaas tags))
  | .update id record => ∀ node ∈ nodes.lookup id, node.data = record

-- What lasts of a successful call.
def Remains (nodes : FogNode) : Call → Prop
  | .appendRoot root ..             => nodes.roots = {root}
  | .appendNewChild parent child .. => parent ∈ nodes ∧ child ∈ nodes
  | .update ..                      => True

theorem ok_of_succeeds (h : nodes.Succeeds r) (e : nodes.step r = some nodes') :
    nodes.serve r.fuel r.call = some (.ok, nodes') := by
  have ⟨⟨_, _⟩, ho, he⟩ := Option.map_eq_some_iff.mp e
  rw [Succeeds, ho, Option.map_some, Option.some.injEq] at h
  rw [ho, ← h, ← he]

theorem roots_insert_root_eq (h : ∀ x ∈ nodes, nodes.parent x = none → x = root) :
    roots (nodes.insert root (fresh none record)) = {root} := by
  ext x
  rw [roots_insert_root, Finset.mem_singleton]
  exact ⟨fun hx => hx.elim id fun hx => h x hx.1 hx.2, .inl⟩

theorem remains_of_succeeds (h : nodes.Succeeds r) (e : nodes.step r = some nodes') :
    nodes'.Remains r.call := by
  have ho := ok_of_succeeds h e
  match r with
  | ⟨fuel, .appendRoot root ..⟩ =>
    cases appendRoot_spec ho
    case inl hs =>
      have ⟨hu, _, he⟩ := hs
      exact he ▸ roots_insert_root_eq hu
    case inr hs =>
      have ⟨_, ⟨_, he⟩, _⟩ := hs
      contradiction
  | ⟨fuel, .appendNewChild parent child ..⟩ =>
    cases appendNewChild_spec ho
    case inl hs => simp at hs
    case inr hs =>
      have ⟨node, hp, hs⟩ := hs
      cases hs
      case inl hs =>
        have ⟨_, _, he⟩ := hs
        subst he
        exact ⟨(mem_append hp).mpr (.inr (Map.mem_of_lookup hp)), (mem_append hp).mpr (.inl rfl)⟩
      case inr hs =>
        have ⟨_, _, he, _⟩ := hs
        contradiction
  | ⟨fuel, .update ..⟩ => trivial

-- A successful call unregisters no node, and does not change the root.
theorem keeps_of_succeeds (h : nodes.Succeeds r) (e : nodes.step r = some nodes') :
    (∀ x ∈ nodes, x ∈ nodes') ∧ ∀ root, nodes.roots = {root} → nodes'.roots = {root} := by
  have ho := ok_of_succeeds h e
  match r with
  | ⟨fuel, .appendRoot root' ..⟩ =>
    cases appendRoot_spec ho
    case inl hs =>
      have ⟨hu, _, he⟩ := hs
      subst he
      refine ⟨fun x hx => Finmap.mem_insert.mpr (.inr hx), fun root hr => ?_⟩
      have ⟨hm, hn⟩ := mem_roots.mp (hr ▸ Finset.mem_singleton_self root)
      rw [hu root hm hn, roots_insert_root_eq hu]
    case inr hs =>
      have ⟨_, ⟨_, he⟩, _⟩ := hs
      contradiction
  | ⟨fuel, .appendNewChild parent child ..⟩ =>
    cases appendNewChild_spec ho
    case inl hs => simp at hs
    case inr hs =>
      have ⟨node, hp, hs⟩ := hs
      cases hs
      case inl hs =>
        have ⟨⟨root', hr', _⟩, _, he⟩ := hs
        subst he
        refine ⟨fun x hx => (mem_append hp).mpr (.inr hx), fun root hr => ?_⟩
        have ⟨hm, _, hn⟩ := (roots_append _ hp).mp (hr' ▸ Finset.mem_singleton_self root')
        have hroot : root' ∈ nodes.roots := mem_roots.mpr ⟨hm, hn⟩
        rw [hr, Finset.mem_singleton] at hroot
        rw [hr', hroot]
      case inr hs =>
        have ⟨_, _, he, _⟩ := hs
        contradiction
  | ⟨fuel, .update id record⟩ =>
    cases ho
    refine ⟨fun x hx => mem_update.mpr hx, fun root hr => ?_⟩
    ext x
    rw [← hr, mem_roots, mem_roots, mem_update, parent_update]

theorem remains_step (hr : nodes.Remains call) (h : nodes.Succeeds r) (e : nodes.step r = some nodes') :
    nodes'.Remains call := by
  have ⟨hm, hroot⟩ := keeps_of_succeeds h e
  cases call
  case appendRoot     => exact hroot _ hr
  case appendNewChild => exact ⟨hm _ hr.1, hm _ hr.2⟩
  case update         => trivial

theorem remains_of_run (h : Run step Succeeds nodes rs nodes') (hr : r ∈ rs) : nodes'.Remains r.call := by
  induction h
  case refl => contradiction
  case trans ho e h hi =>
    cases List.mem_cons.mp hr
    case inl he => exact h.invariant (he ▸ remains_of_succeeds ho e) remains_step
    case inr hr => exact hi hr

theorem insert_eq_iff : Finmap.insert id node nodes = nodes ↔ nodes.lookup id = some node := by
  constructor
  case mp  => exact fun h => h ▸ Finmap.lookup_insert _
  case mpr =>
    intro h
    apply Finmap.ext_lookup
    intro x
    rw [Map.lookup_insert_eq]
    split
    case isTrue he => rw [he, h]
    case isFalse   => rfl

theorem append_ne (hp : nodes.lookup parent = some node) (hne : parent ≠ child) :
    nodes.append parent node child record ≠ nodes := by
  intro he
  have hc := congrArg (fun nodes => (nodes.children parent).length) he
  simp [children_append hp, hne] at hc

theorem append_self :
    nodes.append parent node parent record = nodes.insert parent (fresh (some parent) record) := by
  apply Finmap.ext_lookup
  intro x
  simp only [append, Map.lookup_insert_eq]
  split <;> rfl

theorem undo_ne (hc : child ∈ nodes) : nodes.undo parent node child ≠ nodes := by
  intro he
  rw [← he, undo, Finmap.mem_erase] at hc
  exact hc.1 rfl

theorem update_eq_iff : nodes.update id record = nodes ↔ nodes.Idle (.update id record) := by
  simp only [update, Idle]
  split
  case h_1 hl => simp [hl]
  case h_2 node hl =>
    rw [insert_eq_iff, hl]
    constructor
    case mp  => intro he x hx; cases hx; rw [Option.some.inj he]
    case mpr => intro h; rw [← h node rfl]

-- Whether a call leaves a registry alone in which it has succeeded before.
theorem serve_eq_iff (hr : nodes.Remains call) (h : nodes.serve fuel call = some (outcome, nodes')) :
    nodes' = nodes ↔ nodes.Idle call := by
  cases call
  case appendRoot root ip portHttp portFaas tags =>
    cases appendRoot_spec h
    case inl hs => exact hs.2.2 ▸ insert_eq_iff
    case inr hs =>
      have ⟨⟨x, hx, hn, hne⟩, _⟩ := hs
      have hx : x ∈ nodes.roots := mem_roots.mpr ⟨hx, hn⟩
      rw [hr, Finset.mem_singleton] at hx
      contradiction
  case appendNewChild parent child ip portHttp portFaas tags =>
    have ⟨hp, hc⟩ := hr
    cases appendNewChild_spec h
    case inl hs => exact absurd hp hs.1
    case inr hs =>
      have ⟨node, hp, hs⟩ := hs
      by_cases he : parent = child
      case pos =>
        have hs : nodes' = nodes.append parent node child (.new ip portHttp portFaas tags) := by
          cases hs
          case inl hs => exact hs.2.2
          case inr hs =>
            have ⟨_, _, _, hs⟩ := hs
            rwa [if_pos he] at hs
        subst he
        rw [hs, append_self, insert_eq_iff]
        exact (and_iff_right rfl).symm
      case neg =>
        refine iff_of_false ?_ fun hi => he hi.1
        cases hs
        case inl hs => exact hs.2.2 ▸ append_ne hp he
        case inr hs =>
          have ⟨_, _, _, hs⟩ := hs
          rw [if_neg he] at hs
          exact hs ▸ undo_ne hc
  case update id record =>
    cases h
    exact update_eq_iff

-- A call which is repeated after other successful ones returns, and leaves the registry alone exactly if
-- it is idle by then.
theorem repeated_iff_idle (h : Run step Succeeds ∅ rs nodes) (hr : r ∈ rs) :
    (∃ fuel, ∀ m ≥ fuel, ∃ res, nodes.serve m r.call = some res) ∧
    ∀ fuel outcome nodes', nodes.serve fuel r.call = some (outcome, nodes') →
      (nodes' = nodes ↔ nodes.Idle r.call) :=
  ⟨serve_ends (acyclic_of_run acyclic_empty h) r.call, fun _ _ _ => serve_eq_iff (remains_of_run h hr)⟩

-- A root which is alone may be registered once more.
theorem repeated_iff_idle_of_root :
    ∃ nodes, Run step Succeeds ∅ [.ofRoot 1] nodes ∧
      ∀ fuel outcome nodes', nodes.serve fuel (Request.ofRoot 1).call = some (outcome, nodes') →
        nodes' = nodes := by
  have ⟨nodes, r⟩ : ∃ s, Run step Succeeds ∅ [.ofRoot 1] s := Run.of_exec_isSome (by decide +kernel)
  have h := repeated_iff_idle r (List.mem_singleton_self _)
  refine ⟨nodes, r, fun fuel outcome nodes' hs => (h.2 fuel outcome nodes' hs).mpr ?_⟩
  cases r
  case trans ho e r =>
    cases r
    have ho : appendRoot 8 ∅ ⟨1⟩ (.v4 0) 80 8080 [] = some (.ok, nodes) := ok_of_succeeds ho e
    cases appendRoot_spec ho
    case inl hs => exact hs.2.2 ▸ Finmap.lookup_insert _
    case inr hs =>
      have ⟨_, ⟨_, he⟩, _⟩ := hs
      contradiction

-- A child whose registration is repeated is listed twice by its parent.
theorem not_repeated_of_child :
    ∃ nodes nodes', Run step Succeeds ∅ [.ofRoot 1, .ofChild 1 2] nodes ∧
      nodes.serve 8 (Request.ofChild 1 2).call = some (.ok, nodes') ∧
      nodes.children ⟨1⟩ = [⟨2⟩] ∧ nodes'.children ⟨1⟩ = [⟨2⟩, ⟨2⟩] := by
  have ⟨nodes, r, hs⟩ :
      ∃ s, Run step Succeeds ∅ [.ofRoot 1, .ofChild 1 2] s ∧
        (s.serve 8 (Request.ofChild 1 2).call).any (fun s' =>
          s'.1 = .ok ∧ s.children ⟨1⟩ = [⟨2⟩] ∧ s'.2.children ⟨1⟩ = [⟨2⟩, ⟨2⟩]) = true :=
    Run.of_exec_any (by decide +kernel)
  have ⟨⟨_, nodes'⟩, he, hs⟩ := (Option.any_eq_true ..).mp hs
  have ⟨ho, hc⟩ := of_decide_eq_true hs
  cases ho
  exact ⟨nodes, nodes', r, he, hc⟩

end Market.FogNode
