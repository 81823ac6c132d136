import FogMarket.Market.FogNode.Serve

open Transition

namespace Market.FogNode

-- The arguments of a call of `append_new_child`.
structure Registration where
  parent   : NodeId
  child    : NodeId
  ip       : IpAddr
  portHttp : BitVec 16
  portFaas : BitVec 16
  tags     : List String

def Registration.record (r : Registration) : NodeRecord :=
  .new r.ip r.portHttp r.portFaas r.tags

-- What a call of `append_new_child` does next. Between two of its accesses to the map the lock is not
-- held. `rest` are the children of `id` which are still to be checked.
inductive Progress
  | push
  | insert
  | roots
  | pop (stack : List NodeId)
  | contains (id : NodeId) (rest children stack : List NodeId)
  | parents (id : NodeId) (rest children stack : List NodeId)
  | position (e : Error)
  | remove (e : Error) (pos : ℕ)
  | forget (e : Error)
  | done (outcome : Outcome)
deriving DecidableEq

-- One access to the map, or the end of a loop.
def advance (nodes : FogNode) (r : Registration) : Progress → Option (FogNode × Progress)
  | .push =>
    match nodes.lookup r.parent with
    | none      => some (nodes, .done (.err (.unknownParent r.child r.parent)))
    | some node =>
      some (nodes.insert r.parent { node with children := node.children ++ [r.child] }, .insert)
  | .insert => some (nodes.insert r.child (fresh (some r.parent) r.record), .roots)
  | .roots =>
    if nodes.roots.card = 0 then
      some (nodes, .position .noRoot)
    else if h : nodes.roots.card = 1 then
      some (nodes, .pop [nodes.root h])
    else
      some (nodes, .position .severalRoots)
  | .pop [] => some (nodes, .done .ok)
  | .pop (id :: stack) =>
    match nodes.lookup id with
    | none      => some (nodes, .done .panic)
    | some node => some (nodes, .contains id node.children node.children stack)
  | .contains id [] children stack => some (nodes, .parents id children children stack)
  | .contains id (child :: rest) children stack =>
    if child ∈ nodes then
      some (nodes, .contains id rest children stack)
    else
      some (nodes, .position (.missingChild id child))
  | .parents _ [] children stack => some (nodes, .pop (children.reverse ++ stack))
  | .parents id (child :: rest) children stack =>
    match nodes.lookup child with
    | none   => some (nodes, .done .panic)
    | some _ =>
      if nodes.Misplaced id child then
        some (nodes, .position (.wrongParent id child))
      else
        some (nodes, .parents id rest children stack)
  | .position e =>
    match nodes.lookup r.parent with
    | none      => some (nodes, .done (.err (.unknownParent r.child r.parent)))
    | some node =>
      match node.children.reverse.findIdx? (· = r.child) with
      | none     => some (nodes, .done (.err (.unlistedChild r.parent r.child)))
      | some pos => some (nodes, .remove e pos)
  | .remove e pos =>
    match nodes.lookup r.parent with
    | none      => some (nodes, .done (.err (.unknownParent r.child r.parent)))
    | some node =>
      if pos < node.children.length then
        some (nodes.insert r.parent { node with children := node.children.eraseIdx pos }, .forget e)
      else
        some (nodes, .done .panic)
  | .forget e => some (nodes.erase r.child, .done (.err e))
  | .done _ => none

-- A registry while some registrations are in progress.
structure Registering (ι : Type*) where
  nodes    : FogNode
  progress : ι → Progress

namespace Registering

variable {ι : Type*} [DecidableEq ι]

def start (nodes : FogNode) : Registering ι where
  nodes    := nodes
  progress := fun _ => .push

-- Any of the calls may be the next one to access the map.
def step (regs : ι → Registration) (s : Registering ι) (i : ι) : Option (Registering ι) :=
  (advance s.nodes (regs i) (s.progress i)).map fun (nodes, p) =>
    { nodes := nodes, progress := Function.update s.progress i p }

end Registering

namespace Alone

-- A call which is not disturbed by others.
def step (r : Registration) (s : FogNode × Progress) (_ : Unit) : Option (FogNode × Progress) :=
  advance s.1 r s.2

def Leads (r : Registration) (s s' : FogNode × Progress) : Prop :=
  ∃ n, Run (step r) free s (List.replicate n ()) s'

variable {nodes nodes' : FogNode} {r : Registration} {s s₁ s₂ s₃ : FogNode × Progress}
variable {id child : NodeId} {rest cs children stack : List NodeId} {outcome : Outcome} {e : Error}

theorem Leads.refl : Leads r s s :=
  ⟨0, .refl⟩

theorem Leads.head (h : advance s₁.1 r s₁.2 = some s₂) : Leads r s₂ s₃ → Leads r s₁ s₃
  | ⟨n, h'⟩ => ⟨n + 1, .trans trivial h h'⟩

theorem Leads.single (h : advance s₁.1 r s₁.2 = some s₂) : Leads r s₁ s₂ :=
  .head h .refl

theorem Leads.trans : Leads r s₁ s₂ → Leads r s₂ s₃ → Leads r s₁ s₃
  | ⟨n, h⟩, ⟨m, h'⟩ => ⟨n + m, List.replicate_append_replicate ▸ h.append h'⟩

-- What a call does next once `check_tree` has returned.
def verdict : Outcome → Progress
  | .ok    => .done .ok
  | .err e => .position e
  | .panic => .done .panic

theorem leads_contains :
    Leads r (nodes, .contains id rest children stack) (nodes,
      match rest.find? (· ∉ nodes) with
      | some child => .position (.missingChild id child)
      | none       => .parents id children children stack) := by
  induction rest
  case nil => exact .single rfl
  case cons c rest hi =>
    by_cases hc : c ∈ nodes
    case pos => simpa [hc] using hi.head (by simp [advance, hc])
    case neg => exact .single (by simp [advance, hc])

theorem leads_parents (h : ∀ c ∈ rest, c ∈ nodes) :
    Leads r (nodes, .parents id rest children stack) (nodes,
      match rest.find? (nodes.Misplaced id) with
      | some child => .position (.wrongParent id child)
      | none       => .pop (children.reverse ++ stack)) := by
  induction rest
  case nil => exact .single rfl
  case cons c rest hi =>
    have ⟨node, hl⟩ := Map.lookup_of_mem (h c List.mem_cons_self)
    by_cases hm : nodes.Misplaced id c
    case pos => exact .single (by simp [advance, hl, hm])
    case neg =>
      have hi := hi fun c hc => h c (List.mem_cons_of_mem _ hc)
      simpa [hm] using hi.head (by simp [advance, hl, hm])

theorem leads_visit :
    Leads r (nodes, .pop (id :: stack)) (nodes,
      match nodes.visit id with
      | .error outcome => verdict outcome
      | .ok children   => .pop (children.reverse ++ stack)) := by
  cases hl : nodes.lookup id
  case none =>
    refine .single ?_
    simp [advance, visit, hl, verdict]
  case some node =>
    refine .head (by simp [advance, hl]; rfl) ?_
    have hc := @leads_contains nodes r id node.children node.children stack
    cases hm : node.children.find? (· ∉ nodes)
    case some child =>
      have hv : nodes.visit id = .error (.err (.missingChild id child)) := by simp only [visit, hl, hm]
      rw [hm] at hc
      exact hv ▸ hc
    case none =>
      have hp := @leads_parents nodes r id node.children node.children stack fun c hc => by
        simpa using List.find?_eq_none.mp hm c hc
      rw [hm] at hc
      refine hc.trans ?_
      cases hw : node.children.find? (nodes.Misplaced id)
      case some child =>
        have hv : nodes.visit id = .error (.err (.wrongParent id child)) := by
          simp only [visit, hl, hm, hw]
        rw [hw] at hp
        exact hv ▸ hp
      case none =>
        have hv : nodes.visit id = .ok node.children := by simp only [visit, hl, hm, hw]
        rw [hw] at hp
        exact hv ▸ hp

theorem leads_traverse {n : ℕ} (h : nodes.traverse n stack = some outcome) :
    Leads r (nodes, .pop stack) (nodes, verdict outcome) := by
  induction n generalizing stack <;> cases stack
  case zero.nil | succ.nil =>
    simp only [traverse, Option.some.injEq] at h
    exact h ▸ .single rfl
  case zero.cons => contradiction
  case succ.cons n hi id stack =>
    have hv := @leads_visit nodes r id stack
    simp only [traverse] at h
    split at h
    case h_1 he =>
      cases h
      simpa [he] using hv
    case h_2 he =>
      rw [he] at hv
      exact hv.trans (hi h)

theorem leads_checkTree {n : ℕ} (h : nodes.checkTree n = some outcome) :
    Leads r (nodes, .roots) (nodes, verdict outcome) := by
  simp only [checkTree] at h
  split at h
  case isTrue hc =>
    cases h
    exact .single (by simp [advance, hc, verdict])
  case isFalse h₀ =>
    split at h
    case isTrue hc => exact .head (by simp only [advance, hc, dif_pos]; rfl) (leads_traverse h)
    case isFalse h₁ =>
      cases h
      exact .single (by simp [advance, h₀, h₁, verdict])

theorem leads_rollback :
    Leads r (nodes, .position e) ((nodes.rollback r.parent r.child e).2,
      .done (nodes.rollback r.parent r.child e).1) := by
  cases hl : nodes.lookup r.parent
  case none => exact .single (by simp [advance, rollback, hl])
  case some node =>
    cases hf : node.children.reverse.findIdx? (· = r.child)
    case none => exact .single (by simp [advance, rollback, hl, hf])
    case some pos =>
      refine .head (by simp only [advance, hl, hf]; rfl) ?_
      by_cases hp : pos < node.children.length
      case pos =>
        refine .head (by simp only [advance, hl, hp, if_true]; rfl) (.single ?_)
        simp [advance, rollback, hl, hf, hp]
      case neg => exact .single (by simp [advance, rollback, hl, hf, hp])

-- Taken one access after the other, a call which is alone does what it does as a whole.
theorem leads_appendNewChild {fuel : ℕ}
    (h : nodes.appendNewChild fuel r.parent r.child r.ip r.portHttp r.portFaas r.tags =
      some (outcome, nodes')) :
    Leads r (nodes, .push) (nodes', .done outcome) := by
  simp only [appendNewChild] at h
  split at h
  case h_1 hl =>
    cases h
    exact .single (by simp [advance, hl])
  case h_2 node hl =>
    refine .head (by simp [advance, hl]; rfl) (.head rfl ?_)
    split at h
    case h_1 => contradiction
    case h_2 e hc =>
      have hr := @leads_rollback
        (nodes.append r.parent node r.child (NodeRecord.new r.ip r.portHttp r.portFaas r.tags)) r e
      rw [Option.some.inj h] at hr
      exact (leads_checkTree hc).trans hr
    case h_3 hn hc =>
      cases h
      cases outcome
      case err e => exact absurd rfl (hn e)
      case ok | panic => exact leads_checkTree hc

end Alone
end Market.FogNode
