import FogMarket.Market.FogNode.Rooted

open Transition Hierarchy

namespace Market.FogNode

variable {nodes nodes' : FogNode} {node : Node NodeRecord} {record : NodeRecord}
variable {parent child x y r : NodeId} {call : Call}

-- The children which are still listed once the entry of `child` has been overwritten.
def childrenPast (nodes : FogNode) (child x : NodeId) : List NodeId :=
  if x = child then [] else nodes.children x

-- Registering `child` below `parent` is accepted: besides the child there is one node without parent,
-- and what is found below it is consistent and lists the child under `parent` only.
def Welcomes (nodes : FogNode) (parent child : NodeId) : Prop :=
  ∃ r, (∀ x, x ∈ nodes ∧ x ≠ child ∧ nodes.parent x = none ↔ x = r) ∧
    ∀ y, Below (nodes.childrenPast child) r y → ∀ c ∈ nodes.childrenPast child y,
      if c = child then y = parent else c ∈ nodes ∧ ∀ p, nodes.parent c = some p → p = y

section Welcomes

theorem roots_append (record : NodeRecord) (hp : nodes.lookup parent = some node) :
    x ∈ (nodes.append parent node child record).roots ↔
    x ∈ nodes ∧ x ≠ child ∧ nodes.parent x = none := by
  rw [mem_roots, mem_append hp, parent_append hp]
  grind

variable (hp : nodes.lookup parent = some node)

include hp

-- The child is a leaf, so that nothing but the child itself is found through it.
theorem below_append (h : Below (nodes.append parent node child record).children r y) (hr : r ≠ child) :
    y = child ∨ Below (nodes.childrenPast child) r y := by
  induction h
  case refl => exact .inr .refl
  case tail u w _ hl hi =>
    rw [ListsChild, children_append hp] at hl
    by_cases hw : w = child
    case pos => exact .inl hw
    case neg =>
      have hu : u ≠ child := by
        rintro rfl
        simp at hl
      refine .inr <| .tail (hi.resolve_left hu) ?_
      rw [ListsChild, childrenPast, if_neg hu]
      rw [if_neg hu] at hl
      split at hl
      case isTrue he => simpa [he, hw] using hl
      case isFalse   => exact hl

theorem below_append_of_past (h : Below (nodes.childrenPast child) r y) :
    Below (nodes.append parent node child record).children r y := by
  refine h.mono fun x c hc => ?_
  rw [childrenPast] at hc
  rw [children_append hp]
  grind

theorem accepted_append_iff :
    (nodes.append parent node child record).Accepted ↔ nodes.Welcomes parent child := by
  have hl {y} (hy : y ≠ child) {c} : c ∈ (nodes.append parent node child record).children y ↔
      c ∈ nodes.childrenPast child y ∨ (y = parent ∧ c = child) := by
    rw [children_append hp, childrenPast]
    grind
  constructor
  case mp =>
    intro ⟨r, hr, hs⟩
    have hroot x : x ∈ nodes ∧ x ≠ child ∧ nodes.parent x = none ↔ x = r := by
      rw [← roots_append record hp, hr, Finset.mem_singleton]
    refine ⟨r, hroot, fun y hy c hc => ?_⟩
    have hyc : y ≠ child := by
      rintro rfl
      simp [childrenPast] at hc
    have hcon := hs r (List.mem_singleton_self r) y (below_append_of_past hp hy)
    have hc' := (hl hyc).mpr (.inl hc)
    have hm := (mem_append hp).mp (hcon.listed c hc')
    have hplaced := hcon.placed c hc'
    simp only [parent_append hp] at hplaced
    split
    case isTrue h  => exact (hplaced parent (by simp [h])).symm
    case isFalse h => exact ⟨hm.resolve_left h, fun p hp => hplaced p (by simpa [h] using hp)⟩
  case mpr =>
    intro ⟨r, hroot, H⟩
    have hr := (hroot r).mpr rfl
    refine ⟨r, ?_, ?_⟩
    case refine_1 =>
      ext x
      rw [roots_append record hp, Finset.mem_singleton, hroot]
    case refine_2 =>
      intro x hx y hy
      cases List.mem_singleton.mp hx
      have hmem {y} (hy : Below (nodes.childrenPast child) r y) : y = child ∨ y ∈ nodes := by
        cases hy
        case refl => exact .inr hr.1
        case tail u hu hl =>
          have := H u hu y hl
          split at this
          case isTrue h  => exact .inl h
          case isFalse   => exact .inr this.1
      by_cases hyc : y = child
      case pos =>
        have hnil : (nodes.append parent node child record).children y = [] := by
          rw [children_append hp, if_pos hyc]
        exact ⟨(mem_append hp).mpr (.inl hyc), by simp [hnil], by simp [hnil]⟩
      case neg =>
        have hy := (below_append hp hy hr.2.1).resolve_left hyc
        refine ⟨(mem_append hp).mpr (hmem hy), fun c hc => ?_, fun c hc p hpar => ?_⟩
        · rcases (hl hyc).mp hc with hc | ⟨_, rfl⟩
          · exact (mem_append hp).mpr (hmem (.tail hy hc))
          · exact (mem_append hp).mpr (.inl rfl)
        · rw [parent_append hp] at hpar
          rcases (hl hyc).mp hc with hc | ⟨rfl, rfl⟩
          · have := H y hy c hc
            split at this
            case isTrue h  => simpa [h, this, eq_comm] using hpar
            case isFalse h => exact this.2 p (by simpa [h] using hpar)
          · simpa [eq_comm] using hpar

-- A child which has been accepted is accepted again.
theorem Welcomes.append (h : nodes.Welcomes parent child) (record : NodeRecord) :
    (nodes.append parent node child record).Welcomes parent child := by
  have ⟨r, hroot, H⟩ := h
  have hr := (hroot r).mpr rfl
  have hsub {y} : childrenPast (nodes.append parent node child record) child y ⊆
      (nodes.append parent node child record).children y := by
    rw [childrenPast]
    split <;> simp
  refine ⟨r, fun x => ?_, fun y hy c hc => ?_⟩
  case refine_1 =>
    rw [← hroot, mem_append hp, parent_append hp]
    grind
  case refine_2 =>
    have hyc : y ≠ child := by
      rintro rfl
      simp [childrenPast] at hc
    have hy := (below_append hp (hy.mono fun _ _ hc => hsub hc) hr.2.1).resolve_left hyc
    have hc := hsub hc
    have hpast : c ∈ nodes.children y → c ∈ nodes.childrenPast child y := by simp [childrenPast, hyc]
    rw [children_append hp, if_neg hyc] at hc
    have H := H y hy c
    simp only [mem_append hp, parent_append hp]
    grind

end Welcomes

-- A rejected call leaves the registry as it was.
def Untouched (nodes : FogNode) (call : Call) : Prop :=
  ∀ fuel e nodes', nodes.serve fuel call = some (.err e, nodes') → nodes' = nodes

-- The call is accepted or has nothing to write, or what is left after its rollback is what has been
-- there before. The rollback erases the child, and drops the first of the children of the parent
-- instead of the last.
def Restores (nodes : FogNode) : Call → Prop
  | .appendRoot root .. =>
    root ∉ nodes ∨ ∀ x ∈ nodes, nodes.parent x = none → x = root
  | .appendNewChild parent child ip portHttp portFaas tags =>
    parent ∉ nodes ∨ nodes.Welcomes parent child ∨
      if parent = child then
        nodes.lookup child = some (fresh (some child) (NodeRecord.new ip portHttp portFaas tags))
      else
        child ∉ nodes ∧ ∀ c ∈ nodes.children parent, c = child
  | .update .. => True

theorem tail_append_eq_self_iff {α} {l : List α} {a : α} : (l ++ [a]).tail = l ↔ ∀ b ∈ l, b = a := by
  induction l
  case nil => simp
  case cons b l hi =>
    cases l
    case nil      => simp [eq_comm]
    case cons c l =>
      simp only [List.cons_append, List.tail_cons, List.cons.injEq, List.mem_cons, forall_eq_or_imp] at hi ⊢
      rw [hi]
      grind

theorem append_self_eq_iff :
    nodes.append child node child record = nodes ↔ nodes.lookup child = some (fresh (some child) record) := by
  have hl x : (nodes.append child node child record).lookup x =
      if x = child then some (fresh (some child) record) else nodes.lookup x := by
    simp only [append, Map.lookup_insert_eq]
    grind
  constructor
  case mp =>
    intro h
    rw [← congrArg (Finmap.lookup child) h, hl, if_pos rfl]
  case mpr =>
    intro h
    apply Finmap.ext_lookup
    intro x
    rw [hl]
    split
    case isTrue he => rw [he, h]
    case isFalse   => rfl

theorem undo_eq_iff (hp : nodes.lookup parent = some node) (hne : parent ≠ child) :
    nodes.undo parent node child = nodes ↔ child ∉ nodes ∧ ∀ c ∈ nodes.children parent, c = child := by
  rw [children_of_lookup hp, ← tail_append_eq_self_iff]
  constructor
  case mp =>
    intro h
    have hc := congrArg (Finmap.lookup child) h
    have hp' := congrArg (Finmap.lookup parent) h
    rw [lookup_undo, if_pos rfl] at hc
    rw [lookup_undo, if_neg hne, if_pos rfl, hp] at hp'
    exact ⟨Finmap.lookup_eq_none.mp hc.symm, congrArg (·.children) (Option.some.inj hp')⟩
  case mpr =>
    intro ⟨hc, ht⟩
    apply Finmap.ext_lookup
    intro x
    rw [lookup_undo]
    split
    case isTrue he => rw [he, Finmap.lookup_eq_none.mpr hc]
    case isFalse =>
      split
      case isTrue he => rw [ht, he, hp]
      case isFalse   => rfl

-- A rejected call leaves a reachable registry untouched if and only if its rollback restores it.
theorem untouched_iff_restores {rs : List Request} (h : Run step free ∅ rs nodes) (call : Call) :
    nodes.Untouched call ↔ nodes.Restores call := by
  have ⟨fuel, hf⟩ := serve_ends (acyclic_of_run acyclic_empty h) call
  have ⟨⟨outcome, nodes'⟩, hs⟩ := hf fuel le_rfl
  cases call
  case appendRoot root ip portHttp portFaas tags =>
    constructor
    case mp =>
      intro H
      rcases appendRoot_spec hs with ⟨hr, _⟩ | ⟨_, ⟨e, rfl⟩, rfl⟩
      · exact .inr hr
      · have := H _ _ _ hs
        exact .inl fun hm => Finmap.notMem_erase_self (this ▸ hm)
    case mpr =>
      intro H fuel e nodes' hs
      rcases appendRoot_spec hs with ⟨_, he, _⟩ | ⟨⟨x, hx, hn, hne⟩, _, rfl⟩
      · contradiction
      · exact Map.erase_of_notMem (H.resolve_right fun H => hne (H x hx hn))
  case appendNewChild parent child ip portHttp portFaas tags =>
    constructor
    case mp =>
      intro H
      rcases appendNewChild_spec hs with ⟨hm, _⟩ | ⟨node, hp, ⟨ha, _⟩ | ⟨_, e, rfl, he⟩⟩
      · exact .inl hm
      · exact .inr (.inl (accepted_append_iff hp |>.mp ha))
      · have hr := he.symm.trans (H _ _ _ hs)
        refine .inr (.inr ?_)
        split at hr <;> rename_i hpc
        · rw [if_pos hpc]
          subst hpc
          exact append_self_eq_iff.mp hr
        · rw [if_neg hpc]
          exact undo_eq_iff hp hpc |>.mp hr
    case mpr =>
      intro H fuel e nodes' hs
      rcases appendNewChild_spec hs with ⟨_, _, rfl⟩ | ⟨node, hp, ⟨_, he, _⟩ | ⟨hn, _, _, rfl⟩⟩
      · rfl
      · contradiction
      · rw [accepted_append_iff hp] at hn
        have H := H.resolve_left (not_not.mpr (Map.mem_of_lookup hp)) |>.resolve_left hn
        split at H <;> rename_i hpc
        · rw [if_pos hpc]
          subst hpc
          exact append_self_eq_iff.mpr H
        · rw [if_neg hpc]
          exact undo_eq_iff hp hpc |>.mpr H
  case update id record =>
    refine iff_of_true ?_ trivial
    intro fuel e nodes' hs
    cases hs

theorem untouched_iff_restores_of_leaf :
    ∃ nodes, Run step free ∅ [.ofRoot 1, .ofChild 1 2] nodes ∧
      (nodes.Untouched (Request.ofChild 2 1).call ↔ nodes.Restores (Request.ofChild 2 1).call) := by
  have ⟨nodes, r⟩ : ∃ s, Run step free ∅ [.ofRoot 1, .ofChild 1 2] s :=
    Run.of_exec_isSome (by decide +kernel)
  exact ⟨nodes, r, untouched_iff_restores r _⟩

-- A registered node is rejected as the child of another parent, and is not registered afterwards.
theorem not_untouched_of_other_parent :
    ∃ nodes, Run step free ∅ [.ofRoot 1, .ofChild 1 2, .ofChild 1 3] nodes ∧
      ¬nodes.Untouched (Request.ofChild 2 3).call := by
  have ⟨nodes, r, hm, hs⟩ : ∃ s, Run step free ∅ [.ofRoot 1, .ofChild 1 2, .ofChild 1 3] s ∧ ⟨3⟩ ∈ s ∧
      (s.serve 8 (Request.ofChild 2 3).call).any
        (fun res => res.1 = .err (.wrongParent ⟨1⟩ ⟨3⟩) ∧ ⟨3⟩ ∉ res.2) = true :=
    Run.of_exec_any (by decide +kernel)
  refine ⟨nodes, r, fun h => ?_⟩
  have ⟨⟨outcome, nodes'⟩, hs, hn⟩ := (Option.any_eq_true ..).mp hs
  simp only [decide_eq_true_eq] at hn
  exact hn.2 (h 8 _ nodes' (hn.1 ▸ hs) ▸ hm)

end Market.FogNode
