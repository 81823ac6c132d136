import FogMarket.Fog.Topology

open Transition Market

-- Nodes which have been told where they belong.
namespace Fog

def RegisterNode.nodeId : RegisterNode → NodeId
  | .marketNode nodeId .. => nodeId
  | .node register        => register.nodeId

namespace Topology

-- The parents of the nodes. The root is connected to the market.
structure Plan where
  root   : NodeId
  parent : NodeId → Option NodeId
  above  : parent root = none

-- A node registers where it belongs.
def Plan.Fits (plan : Plan) : RegisterNode → Prop
  | .marketNode nodeId .. => nodeId = plan.root
  | .node register        => plan.parent register.nodeId = some register.parent

-- The nodes are where they belong, as far as they have been registered.
structure Follows (plan : Plan) (s : Topology) : Prop where
  named    : s.Named
  placed   : ∀ x ∈ s.registry, s.registry.parent x = plan.parent x
  root     : ∀ x ∈ s.registry, plan.parent x = none → x = plan.root
  rooted   : ∀ x ∈ s.registry, plan.root ∈ s.registry
  above    : ∀ x ∈ s.registry, ∀ p, plan.parent x = some p → p ∈ s.registry
  children : ∀ p, ∀ c ∈ s.registry.children p, c ∈ s.registry ∧ plan.parent c = some p
  known    : ∀ p c, s.Lists p c → plan.parent c = some p
  listed   : ∀ c ∈ s.registry, ∀ p, plan.parent c = some p → s.Lists p c

-- What becomes of a registration.
structure Proceeds (plan : Plan) (id : NodeId) (s : Topology) (ok : Bool) (s' : Topology) : Prop where
  follows  : Follows plan s'
  keeps    : ∀ x ∈ s.registry, x ∈ s'.registry
  lists    : ∀ p c, s.Lists p c → s'.Lists p c
  answered : ok = true → id ∈ s'.registry

variable {plan : Plan} {s s' s₁ : Topology} {register : ChildRegistration} {request : RegisterNode} {ok ok₁ : Bool}
variable {fuel : ℕ} {id p c x : NodeId} {fate : Fate} {receiver : Option NodeId}

theorem Proceeds.refl (h : Follows plan s) : Proceeds plan id s false s where
  follows   := h
  keeps _   := fun h => h
  lists _ _ := fun h => h
  answered  := nofun

theorem Proceeds.trans (h₁ : Proceeds plan id s ok₁ s₁) (h₂ : Proceeds plan id s₁ ok s') :
    Proceeds plan id s ok s' where
  follows   := h₂.follows
  keeps x   := fun hx => h₂.keeps x (h₁.keeps x hx)
  lists p c := fun hl => h₂.lists p c (h₁.lists p c hl)
  answered  := h₂.answered

-- The market does not reject a node which is where it belongs.
theorem Follows.welcomes (h : Follows plan s) (hp : p ∈ s.registry) (hc : plan.parent c = some p) :
    s.registry.Welcomes p c := by
  refine ⟨plan.root, ?_, ?_⟩
  case refine_1 =>
    intro x
    constructor
    case mp =>
      rintro ⟨hx, _, hn⟩
      exact h.root x hx ((h.placed x hx).symm.trans hn)
    case mpr =>
      rintro rfl
      refine ⟨h.rooted p hp, ?_, (h.placed _ (h.rooted p hp)).trans plan.above⟩
      rintro rfl
      cases plan.above.symm.trans hc
  case refine_2 =>
    intro y _ x hx
    have hl : x ∈ s.registry.children y := by
      rw [FogNode.childrenPast] at hx
      split at hx
      case isTrue => cases hx
      case isFalse => exact hx
    obtain ⟨hm, hy⟩ := h.children y x hl
    split
    case isTrue he =>
      subst he
      exact Option.some.inj (hy.symm.trans hc)
    case isFalse =>
      refine ⟨hm, ?_⟩
      intro q hq
      exact Option.some.inj ((hq.symm.trans (h.placed x hm)).trans hy)

theorem Follows.append {node : Node NodeRecord} (h : Follows plan s) (hp : s.registry.lookup p = some node)
    (hc : plan.parent c = some p) (hl : s.Lists p c) (record : NodeRecord) :
    Follows plan { s with registry := s.registry.append p node c record } where
  named        := h.named
  placed x hx  := by
    rw [FogNode.parent_append hp]
    split
    case isTrue he => exact he ▸ hc.symm
    case isFalse he => exact h.placed x (((FogNode.mem_append hp).mp hx).resolve_left he)
  root x hx hn := by
    cases (FogNode.mem_append hp).mp hx
    case inl he => cases hc.symm.trans (he ▸ hn)
    case inr hx => exact h.root x hx hn
  rooted x hx  := (FogNode.mem_append hp).mpr (.inr (h.rooted p (Map.mem_of_lookup hp)))
  above x hx q hq := by
    apply (FogNode.mem_append hp).mpr
    cases (FogNode.mem_append hp).mp hx
    case inl he =>
      subst he
      cases hc.symm.trans hq
      exact .inr (Map.mem_of_lookup hp)
    case inr hx => exact .inr (h.above x hx q hq)
  children q x hx := by
    rw [FogNode.mem_append hp]
    rw [FogNode.children_append hp] at hx
    split at hx
    case isTrue => cases hx
    case isFalse =>
      split at hx
      case isTrue he =>
        cases List.mem_append.mp hx
        case inl hx => exact (h.children q x (he ▸ hx)).imp_left .inr
        case inr hx =>
          cases List.mem_singleton.mp hx
          exact ⟨.inl rfl, he ▸ hc⟩
      case isFalse => exact (h.children q x hx).imp_left .inr
  known        := h.known
  listed x hx q hq := by
    cases (FogNode.mem_append hp).mp hx
    case inl he =>
      subst he
      cases hc.symm.trans hq
      exact hl
    case inr hx => exact h.listed x hx q hq

-- A root which registers once more is registered without its children.
theorem Follows.insert (h : Follows plan s) (record : NodeRecord) :
    Follows plan { s with registry := s.registry.insert plan.root (FogNode.fresh none record) } where
  named        := h.named
  placed x hx  := by
    rw [FogNode.parent_insert]
    split
    case isTrue he => exact he ▸ plan.above.symm
    case isFalse he => exact h.placed x ((Finmap.mem_insert.mp hx).resolve_left he)
  root x hx hn := by
    cases Finmap.mem_insert.mp hx
    case inl he => exact he
    case inr hx => exact h.root x hx hn
  rooted x hx  := Finmap.mem_insert.mpr (.inl rfl)
  above x hx p hp := by
    apply Finmap.mem_insert.mpr
    cases Finmap.mem_insert.mp hx
    case inl he => cases plan.above.symm.trans (he ▸ hp)
    case inr hx => exact .inr (h.above x hx p hp)
  children p x hx := by
    rw [FogNode.children_insert] at hx
    split at hx
    case isTrue => cases hx
    case isFalse => exact (h.children p x hx).imp_left fun hx => Finmap.mem_insert.mpr (.inr hx)
  known        := h.known
  listed x hx p hp := by
    cases Finmap.mem_insert.mp hx
    case inl he => cases plan.above.symm.trans (he ▸ hp)
    case inr hx => exact h.listed x hx p hp

theorem Follows.registerNode (h : Follows plan s) (hf : plan.Fits request)
    (hl : ∀ register, request = .node register → s.Lists register.parent register.nodeId)
    (e : s.registerNode fuel request = some (ok, s')) : Proceeds plan request.nodeId s ok s' := by
  obtain ⟨⟨outcome, registry⟩, ha, he⟩ := Option.map_eq_some_iff.mp e
  cases he
  cases request
  case marketNode nodeId ip portHttp portFaas tags =>
    cases hf
    rcases FogNode.appendRoot_spec ha with ⟨_, _, rfl⟩ | ⟨⟨x, hx, hn, hne⟩, _⟩
    case inl =>
      exact ⟨h.insert _, fun x hx => Finmap.mem_insert.mpr (.inr hx), fun _ _ => id,
        fun _ => Finmap.mem_insert.mpr (.inl rfl)⟩
    case inr => exact absurd (h.root x hx ((h.placed x hx).symm.trans hn)) hne
  case node register =>
    rcases FogNode.appendNewChild_spec ha with ⟨_, rfl, rfl⟩ | ⟨node, hp, ⟨_, _, rfl⟩ | ⟨hn, _⟩⟩
    case inl => exact .refl h
    case inr.inl =>
      exact ⟨h.append hp hf (hl register rfl) _, fun x hx => (FogNode.mem_append hp).mpr (.inr hx), fun _ _ => id,
        fun _ => (FogNode.mem_append hp).mpr (.inl rfl)⟩
    case inr.inr =>
      exact absurd ((FogNode.accepted_append_iff hp).mpr (h.welcomes (Map.mem_of_lookup hp) hf)) hn

theorem Follows.registerLocally {situation : NodeSituation} (h : Follows plan s)
    (hf : plan.parent register.nodeId = some register.parent) (hl : s.nodes.lookup id = some situation) :
    Proceeds plan register.nodeId s false (s.registerLocally id situation register) := by
  have he := handled_registerLocally register h.named hl
  have hr : (s.registerLocally id situation register).registry = s.registry := he.unreached (fun h => h.1)
  refine ⟨?_, fun x hx => hr ▸ hx, he.lists, nofun⟩
  constructor
  case named    => exact he.named
  case placed   => exact hr ▸ h.placed
  case root     => exact hr ▸ h.root
  case rooted   => exact hr ▸ h.rooted
  case above    => exact hr ▸ h.above
  case children => exact hr ▸ h.children
  case known =>
    intro p c hc
    cases he.listed p c hc
    case inl hc => exact h.known p c hc
    case inr hc => exact hc.1 ▸ hc.2 ▸ hf
  case listed => exact fun c hc p hp => he.lists p c (h.listed c (hr ▸ hc) p hp)

-- The parent lists the child before the market is asked.
theorem Follows.registerToParent (h : Follows plan s) (hf : plan.Fits request)
    (hl : ∀ register, request = .node register →
      receiver = some register.parent ∨ s.Lists register.parent register.nodeId)
    (e : registerToParent fuel request fate receiver s = some (ok, s')) : Proceeds plan request.nodeId s ok s' := by
  induction fate generalizing receiver s s' ok
  case giveUp =>
    cases e
    exact .refl h
  case lost next hi => exact hi h hl e
  case delivered heard above next ha hi =>
    obtain ⟨⟨ok₁, s₁⟩, h₁, h₂⟩ := Option.bind_eq_some_iff.mp e
    clear e
    dsimp only at h₂
    have hresponse : Proceeds plan request.nodeId s ok₁ s₁ := by
      cases receiver
      case none => exact h.registerNode hf (fun register he => (hl register he).resolve_left nofun) h₁
      case some id =>
        simp only [registerChildNode] at h₁
        split at h₁
        case h_1 =>
          cases h₁
          exact .refl h
        case h_2 =>
          cases h₁
          exact .refl h
        case h_3 situation register hs =>
          have hlocal := h.registerLocally hf hs
          refine hlocal.trans (ha hlocal.follows ?_ h₁)
          rintro _ ⟨⟩
          apply Or.inr
          cases hl register rfl
          case inl he => exact (lists_registerLocally h.named hs).mpr (.inr ⟨(Option.some.inj he).symm, rfl, rfl⟩)
          case inr hl => exact hlocal.lists _ _ hl
    split at h₂
    case isTrue hok =>
      cases h₂
      exact { hresponse with answered := fun _ => hresponse.answered hok.1 }
    case isFalse =>
      refine hresponse.trans (hi hresponse.follows ?_ h₂)
      exact fun register he => (hl register he).imp_right (hresponse.lists _ _)

-- The fog nodes and the market, and the nodes whose registrations have been answered.
structure Joining where
  topology : Topology
  joined   : List NodeId

def Joining.step (s : Joining) (a : Registering) : Option Joining :=
  (Topology.registerToParent a.fuel a.register a.fate a.receiver s.topology).map fun (ok, topology) =>
    { topology := topology, joined := if ok then a.register.nodeId :: s.joined else s.joined }

-- Whatever gets lost, and in whichever order the nodes register: those which have been answered are where they belong.
theorem follows_of_joining {s s' : Joining} {as : List Registering} (h : Follows plan s.topology)
    (hj : ∀ x ∈ s.joined, x ∈ s.topology.registry)
    (r : Run Joining.step (fun _ a => plan.Fits a.register) s as s') :
    Follows plan s'.topology ∧ ∀ x ∈ s'.joined, x ∈ s'.topology.registry := by
  refine r.invariant (I := fun s => Follows plan s.topology ∧ ∀ x ∈ s.joined, x ∈ s.topology.registry) ⟨h, hj⟩ ?_
  rintro s a s' ⟨h, hj⟩ hf e
  obtain ⟨⟨ok, topology⟩, ht, rfl⟩ := Option.map_eq_some_iff.mp e
  have hp := h.registerToParent hf (fun register he => .inl (by rw [Registering.receiver, he])) ht
  refine ⟨hp.follows, ?_⟩
  intro x hx
  dsimp only at hx
  split at hx
  case isTrue hok =>
    cases List.mem_cons.mp hx
    case inl he => exact he ▸ hp.answered hok
    case inr hx => exact hp.keeps x (hj x hx)
  case isFalse => exact hp.keeps x (hj x hx)

-- Once all of them have been registered, the market and the fog nodes agree.
theorem Follows.agrees (h : Follows plan s) (hm : ∀ c p, plan.parent c = some p → c ∈ s.registry) : s.Agrees := by
  intro p c
  constructor
  case mp =>
    intro hl
    have hc := h.known p c hl
    exact (h.placed c (hm c p hc)).trans hc
  case mpr =>
    intro hp
    have hc : c ∈ s.registry := FogNode.mem_of_parent hp
    exact h.listed c hc p ((h.placed c hc).symm.trans hp)

end Topology
end Fog
