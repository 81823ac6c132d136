import FogMarket.Library.Search
import FogMarket.Library.Sorting
import FogMarket.Fog.FunctionTracking
import FogMarket.Fog.Propagation

open Relation Search SimpleGraph Sorting

namespace Fog

-- A call of `bid_on`: the node which is called, and the request it has received.
abbrev Call :=
  NodeId × BidRequest

namespace FunctionLife

variable (life : FunctionLife) (query : NodeId → BidRequest → Option (Reply (BidProposals ℚ)))
variable (sla : Sla) (origin : NodeId) (acc : AccumulatedLatency)

-- The latency up to a neighbor, unless it is unknown or too high.
def latencyWithin (neighbor : NodeId) : Option (NodeId × AccumulatedLatency) :=
  match life.latencyTo neighbor with
  | none         => none
  | some latency =>
    match life.situation.getFogNodeNeighbor neighbor with
    | none             => none
    | some description =>
      let next := acc.accumulate latency description.advertisedBandwidth
      if sla.latencyMax < computeWorseLatency next sla.inputMaxSize then none else some (neighbor, next)

def latencies : List (NodeId × AccumulatedLatency) :=
  (life.situation.getNeighbors.filter (· ≠ origin)).filterMap (life.latencyWithin sla acc)

-- The neighbors are asked one after the other, until one of them answers with proposals.
def askInOrder : List (NodeId × AccumulatedLatency) → Option (Reply (BidProposals ℚ))
  | [] => some ⟨[], .ok { bids := [] }⟩
  | (neighbor, acc) :: rest =>
    (query neighbor { nodeOrigin := life.situation.myId, sla := sla, accumulatedLatency := acc }).bind fun reply =>
      let proceed := (askInOrder rest).map fun below => ⟨reply.calls ++ below.calls, below.result⟩
      match reply.result with
      | .error _ => proceed
      | .ok bid  => if bid.bids.isEmpty then proceed else some reply

-- The sort panics if two latencies cannot be compared.
def followUpInOrder (compare : AccumulatedLatency → AccumulatedLatency → Option Ordering) :
    Option (Reply (BidProposals ℚ)) :=
  match sortBy (fun a b => compare a.2 b.2) (life.latencies sla origin acc) with
  | none           => some ⟨[], .error .panic⟩
  | some latencies => life.askInOrder query sla latencies

end FunctionLife

namespace Network

variable (net : Network) (compare : AccumulatedLatency → AccumulatedLatency → Option Ordering)

-- What a neighbor of `v` reads, if the request gets there.
def read (v : NodeId) (sla : Sla) (neighbor : NodeId × AccumulatedLatency) : Option Call :=
  (net.exchange v neighbor.1 (sla, neighbor.2)).map fun sent =>
    (neighbor.1, { nodeOrigin := v, sla := sent.1, accumulatedLatency := sent.2 })

-- The calls which are made, one after the other, as long as no proposal is found.
def successors (x : Call) : List Call :=
  match net.nodes.lookup x.1 with
  | none      => []
  | some life =>
    let latencies := life.latencies x.2.sla x.2.nodeOrigin x.2.accumulatedLatency
    ((sortBy (fun a b => compare a.2 b.2) latencies).getD []).filterMap (net.read x.1 x.2.sla)

-- A request is passed on to a neighbor, but not back to where it has come from.
def Passes (x y : Call) : Prop :=
  y.1 ∈ net.neighbors x.1 ∧ y.1 ≠ x.2.nodeOrigin ∧ net.forward x.1 y.1 x.2 = some y.2

-- The median latency with which the request is passed on.
def medianTo (x : Call) (w : NodeId) : Option Float := do
  let life ← net.nodes.lookup x.1
  let (_, acc) ← life.latencyWithin x.2.sla x.2.accumulatedLatency w
  return acc.median

-- The request is answered, i.e. neither the auction of the node panics nor the sort of its neighbors.
def Composed (x : Call) : Prop :=
  ∀ life, net.nodes.lookup x.1 = some life →
    life.bidOn x.2.sla x.2.accumulatedLatency ≠ .error .panic ∧
    (life.latencies x.2.sla x.2.nodeOrigin x.2.accumulatedLatency).Pairwise fun a b =>
      (partialCmp a.2.median b.2.median).isSome = true

-- Every request which may be sent on behalf of `x` is answered.
def Answering (x : Call) : Prop :=
  ∀ y, ReflTransGen net.Passes x y → net.Composed y

-- The latencies are sorted by their medians.
structure Sorts (before : Float → Float → Prop) : Prop where
  isSome : ∀ a b, (compare a b).isSome = (partialCmp a.median b.median).isSome
  sorted : ∀ l sorted, sortBy (fun a b : NodeId × AccumulatedLatency => compare a.2 b.2) l = some sorted →
    sorted.Pairwise fun a b => before a.2.median b.2.median

-- The successors of a call are the neighbors the request is passed on to, in the order of their latencies.
structure Visits (before : Float → Float → Prop) (next : Call → List Call) (x : Call) : Prop where
  passes : ∀ y, y ∈ next x ↔ net.Passes x y
  once   : ((next x).map Prod.fst).Nodup
  sorted : (next x).Pairwise fun y z => ∀ a ∈ net.medianTo x y.1, ∀ b ∈ net.medianTo x z.1, before a b

-- The calls are those which the request gets to, and each of them visits its neighbors.
structure Explores (before : Float → Float → Prop) (next : Call → List Call) (x : Call) (order : List Call) :
    Prop where
  reached : ∀ y, y ∈ order ↔ ReflTransGen net.Passes x y
  visits  : ∀ y ∈ order, net.Visits before next y

-- The function which is recorded by a call.
def record (x : Call) : Option Proposed := do
  let life ← net.nodes.lookup x.1
  let (_, record) ← (← (life.bidOn x.2.sla x.2.accumulatedLatency).toOption)
  return record

def insertRecords (dbs : NodeId → FunctionTracking) : List Call → NodeId → FunctionTracking
  | []         => dbs
  | x :: calls =>
    match net.record x with
    | none        => insertRecords dbs calls
    | some record => insertRecords (Function.update dbs x.1 ((dbs x.1).insert record)) calls

-- The reply to a search which looks at calls in this order. Without a proposal, it is `nothing`.
structure Finds (nothing : Except Failure (BidProposals ℚ)) (order : List Call) (reply : Reply (BidProposals ℚ)) :
    Prop where
  calls  : reply.calls = searched net.proposal order
  result : reply.result = (order.findSome? net.proposal).elim nothing fun p => .ok { bids := [p] }

-- The proposal which is returned is the one of the first call by which one is made, and it is the only one of
-- which there is a record.
structure FirstPlaced (nothing : Except Failure (BidProposals ℚ)) (order : List Call)
    (reply : Reply (BidProposals ℚ)) : Prop where
  placed  : ∀ x, order.find? (fun x => (net.proposal x).isSome) = some x →
    ∃ p r, net.proposal x = some p ∧ p.nodeId = x.1 ∧ reply.result = .ok { bids := [p] } ∧
      net.record x = some r ∧ r.bid = p.bid ∧
      ∀ dbs, net.insertRecords dbs reply.calls = Function.update dbs x.1 ((dbs x.1).insert r)
  refused : order.find? (fun x => (net.proposal x).isSome) = none →
    reply.result = nothing ∧ ∀ dbs, net.insertRecords dbs reply.calls = dbs

variable {net compare} {x y : Call} {life : FunctionLife} {id : NodeId} {request : BidRequest} {fuel : ℕ}
variable {before : Float → Float → Prop} {w : NodeId} {acc : AccumulatedLatency} {sla : Sla}
variable {nothing : Except Failure (BidProposals ℚ)} {order : List Call} {reply : Reply (BidProposals ℚ)}

theorem fst_of_latencyWithin {z : NodeId × AccumulatedLatency} (h : life.latencyWithin sla acc w = some z) :
    z.1 = w := by
  simp only [FunctionLife.latencyWithin] at h
  repeat' split at h
  all_goals
    cases h
    try rfl

theorem fst_of_read {v : NodeId} {z : NodeId × AccumulatedLatency} (h : net.read v sla z = some y) :
    y.1 = z.1 := by
  have ⟨_, _, h⟩ := Option.map_eq_some_iff.mp h
  exact h ▸ rfl

theorem forward_eq_some (hl : net.nodes.lookup x.1 = some life) : net.forward x.1 w x.2 = some request ↔
    ∃ z, life.latencyWithin x.2.sla x.2.accumulatedLatency w = some z ∧
      net.read x.1 x.2.sla z = some (w, request) := by
  simp only [forward, hl, FunctionLife.latencyWithin, bind, Option.bind_some]
  cases hlat : life.latencyTo w
  case none => simp
  case some latency =>
    cases hd : life.situation.getFogNodeNeighbor w
    case none => simp
    case some description =>
      simp only [Option.bind_some]
      split
      case isTrue  => simp
      case isFalse => simp [read, Option.bind_eq_some_iff, pure, Option.map_eq_some_iff]

theorem mem_latencies {z : NodeId × AccumulatedLatency} : z ∈ life.latencies sla w acc ↔
    z.1 ∈ life.situation.getNeighbors ∧ z.1 ≠ w ∧ life.latencyWithin sla acc z.1 = some z := by
  simp only [FunctionLife.latencies, List.mem_filterMap, List.mem_filter, decide_eq_true_eq]
  constructor
  case mp =>
    intro ⟨v, ⟨hv, ho⟩, hz⟩
    have he := fst_of_latencyWithin hz
    subst he
    exact ⟨hv, ho, hz⟩
  case mpr => exact fun ⟨hv, ho, hz⟩ => ⟨z.1, ⟨hv, ho⟩, hz⟩

theorem medianTo_eq {z : NodeId × AccumulatedLatency} (hl : net.nodes.lookup x.1 = some life)
    (hz : z ∈ life.latencies x.2.sla x.2.nodeOrigin x.2.accumulatedLatency) (hr : net.read x.1 x.2.sla z = some y) :
    net.medianTo x y.1 = some z.2.median := by
  have ⟨_, _, hz⟩ := mem_latencies.mp hz
  rw [fst_of_read hr]
  simp [medianTo, hl, hz]

namespace Sorts

theorem exists_sorted (s : Sorts compare before) (hc : net.Composed x) (hl : net.nodes.lookup x.1 = some life) :
    ∃ sorted, sortBy (fun a b => compare a.2 b.2)
      (life.latencies x.2.sla x.2.nodeOrigin x.2.accumulatedLatency) = some sorted := by
  have h := (hc life hl).2
  simp only [← s.isSome] at h
  exact ⟨_, if_pos h⟩

theorem mem_successors (s : Sorts compare before) (hc : net.Composed x) (hx : x.1 ∈ net.nodes.keys) :
    y ∈ net.successors compare x ↔ net.Passes x y := by
  have ⟨life, hl⟩ := mem_keys_iff.mp hx
  have ⟨sorted, hs⟩ := s.exists_sorted hc hl
  simp only [successors, hl, hs, Option.getD_some, List.mem_filterMap, (perm_of_sortBy hs).mem_iff, mem_latencies,
    Passes, neighbors_eq hl]
  constructor
  case mp =>
    intro ⟨z, ⟨hv, ho, hz⟩, hr⟩
    have he := fst_of_read hr
    exact ⟨he ▸ hv, he ▸ ho, (forward_eq_some hl).mpr ⟨z, he ▸ hz, hr⟩⟩
  case mpr =>
    intro ⟨hv, ho, hf⟩
    have ⟨z, hz, hr⟩ := (forward_eq_some hl).mp hf
    have he := fst_of_read hr
    exact ⟨z, ⟨he ▸ hv, he ▸ ho, he ▸ hz⟩, hr⟩

theorem visits (s : Sorts compare before) (t : net.Tree) (hc : net.Composed x) (hx : x.1 ∈ net.nodes.keys) :
    net.Visits before (net.successors compare) x := by
  refine ⟨fun y => s.mem_successors hc hx, ?_, ?_⟩
  all_goals
    have ⟨life, hl⟩ := mem_keys_iff.mp hx
    have ⟨sorted, hs⟩ := s.exists_sorted hc hl
    simp only [successors, hl, hs, Option.getD_some]
  case refine_1 =>
    have hn := neighbors_eq hl ▸ t.nodup_neighbors x.1
    have hn : (life.latencies x.2.sla x.2.nodeOrigin x.2.accumulatedLatency).Pairwise (·.1 ≠ ·.1) := by
      refine List.pairwise_filterMap.mpr ((hn.filter _).imp fun hne y hy z hz => ?_)
      rwa [fst_of_latencyWithin hy, fst_of_latencyWithin hz]
    have hn := hn.perm (perm_of_sortBy hs).symm Ne.symm
    refine List.pairwise_map.mpr (List.pairwise_filterMap.mpr (hn.imp fun hne y hy z hz => ?_))
    rwa [fst_of_read hy, fst_of_read hz]
  case refine_2 =>
    refine List.pairwise_filterMap.mpr ((s.sorted _ _ hs).imp_of_mem fun ha hb hle y hy z hz a ha' b hb' => ?_)
    rw [medianTo_eq hl ((perm_of_sortBy hs).mem_iff.mp ha) hy] at ha'
    rw [medianTo_eq hl ((perm_of_sortBy hs).mem_iff.mp hb) hz] at hb'
    cases ha'
    cases hb'
    exact hle

end Sorts

theorem requestNeighborBid_eq {serve : NodeId → BidRequest → Option (Reply (BidProposals ℚ))}
    (z : NodeId × AccumulatedLatency) :
    net.requestNeighborBid serve id z.1 { nodeOrigin := id, sla := sla, accumulatedLatency := z.2 } =
      (net.read id sla z).elim (some ⟨[], .error .error⟩) fun y => serve y.1 y.2 := by
  simp only [requestNeighborBid, read]
  cases net.exchange id z.1 (sla, z.2) <;> rfl

-- Errors and empty answers alike lead to the next neighbor.
theorem finds_askInOrder {serve : NodeId → BidRequest → Option (Reply (BidProposals ℚ))} {order : Call → List Call}
    {latencies : List (NodeId × AccumulatedLatency)} (hid : life.situation.myId = id)
    (hn : ∀ bid, nothing = .ok bid → bid.bids = [])
    (h : ∀ y ∈ latencies.filterMap (net.read id sla),
      ∃ reply, serve y.1 y.2 = some reply ∧ net.Finds nothing (order y) reply) :
    ∃ reply, life.askInOrder (net.requestNeighborBid serve id) sla latencies = some reply ∧
      net.Finds (.ok { bids := [] }) ((latencies.filterMap (net.read id sla)).flatMap order) reply := by
  induction latencies
  case nil => exact ⟨_, rfl, rfl, rfl⟩
  case cons z latencies hi =>
    simp only [FunctionLife.askInOrder, hid, requestNeighborBid_eq]
    cases hr : net.read id sla z
    case none =>
      rw [List.filterMap_cons_none hr] at h ⊢
      have ⟨below, hb, hf⟩ := hi h
      exact ⟨below, by simp [hb], hf⟩
    case some y =>
      rw [List.filterMap_cons_some hr] at h ⊢
      have ⟨reply, hs, hf⟩ := h y List.mem_cons_self
      have ⟨below, hb, hfb⟩ := hi fun y' hy => h y' (List.mem_cons_of_mem y hy)
      rw [List.flatMap_cons]
      simp only [Option.elim_some, hs, Option.bind_some, hb, Option.map_some]
      cases hp : (order y).findSome? net.proposal
      case some p =>
        refine ⟨reply, by simp [hf.result, hp], ?_, ?_⟩
        case refine_1 => rw [searched_append_some hp, hf.calls]
        case refine_2 => rw [List.findSome?_append, hp, hf.result, hp]; rfl
      case none =>
        refine ⟨⟨reply.calls ++ below.calls, below.result⟩, ?_, ?_, ?_⟩
        case refine_1 =>
          rw [hf.result, hp, Option.elim_none]
          cases nothing
          case error => rfl
          case ok bid => simp [hn bid rfl]
        case refine_2 => rw [searched_append_none hp, hf.calls, hfb.calls]
        case refine_3 => rw [List.findSome?_append, hp, Option.none_or, hfb.result]

theorem record_of_proposal_none (h : net.proposal x = none) : net.record x = none := by
  simp only [proposal, record, bind, pure, Option.bind_eq_none_iff, reduceCtorEq, imp_false] at h ⊢
  exact h

theorem record_of_proposal_some {p : BidProposal ℚ} (h : net.proposal x = some p) :
    ∃ r, net.record x = some r ∧ r.bid = p.bid := by
  simp only [proposal, record, bind, pure, Option.bind_eq_some_iff, Option.some.injEq] at h ⊢
  obtain ⟨life, hl, bid, hb, ⟨_, r⟩, hr, hp⟩ := h
  exact ⟨r, ⟨life, hl, bid, hb, _, hr, rfl⟩, hp ▸ rfl⟩

theorem Sorts.finds_followUpInOrder {serve : NodeId → BidRequest → Option (Reply (BidProposals ℚ))}
    {order : Call → List Call} (s : Sorts compare before) (hc : net.Composed (id, request))
    (hl : net.nodes.lookup id = some life) (hid : life.situation.myId = id)
    (hn : ∀ bid, nothing = .ok bid → bid.bids = [])
    (h : ∀ y ∈ net.successors compare (id, request),
      ∃ reply, serve y.1 y.2 = some reply ∧ net.Finds nothing (order y) reply) :
    ∃ reply, life.followUpInOrder (net.requestNeighborBid serve id) request.sla request.nodeOrigin
        request.accumulatedLatency compare = some reply ∧
      net.Finds (.ok { bids := [] }) ((net.successors compare (id, request)).flatMap order) reply := by
  have ⟨sorted, hs⟩ := s.exists_sorted hc hl
  simp only [FunctionLife.followUpInOrder, hs]
  simp only [successors, hl, hs, Option.getD_some] at h ⊢
  exact finds_askInOrder hid hn h

-- Calls by which no proposal is made leave no record.
theorem insertRecords_searched (dbs : NodeId → FunctionTracking) (order : List Call) :
    net.insertRecords dbs (searched net.proposal order) =
      net.insertRecords dbs (order.find? fun x => (net.proposal x).isSome).toList := by
  induction order
  case nil => rfl
  case cons x order hi =>
    rw [List.find?_cons]
    cases hp : net.proposal x
    case none   => rw [searched_cons_none hp, insertRecords, record_of_proposal_none hp, hi]; rfl
    case some p => rw [searched_cons_some hp]; rfl

theorem Finds.firstPlaced (h : net.Finds nothing order reply) : net.FirstPlaced nothing order reply := by
  have ⟨hc, hr⟩ := h
  rw [findSome?_eq_bind] at hr
  constructor
  case placed =>
    intro x hx
    have ⟨p, hp⟩ := Option.isSome_iff_exists.mp (List.find?_some (p := fun x => (net.proposal x).isSome) hx)
    have ⟨r, hrec, hbid⟩ := record_of_proposal_some hp
    refine ⟨p, r, hp, nodeId_of_proposal hp, ?_, hrec, hbid, fun dbs => ?_⟩
    case refine_1 => rw [hr, hx, Option.bind_some, hp, Option.elim_some]
    case refine_2 => simp [hc, insertRecords_searched, hx, insertRecords, hrec]
  case refused =>
    intro hx
    refine ⟨by rw [hr, hx, Option.bind_none, Option.elim_none], fun dbs => ?_⟩
    rw [hc, insertRecords_searched, hx, Option.toList_none, insertRecords]

theorem Answering.composed (h : net.Answering x) : net.Composed x :=
  h x .refl

theorem Answering.passes (h : net.Answering x) (hp : net.Passes x y) : net.Answering y :=
  fun z hz => h z (.head hp hz)

theorem Passes.mem_keys (h : net.Passes x y) (t : net.Tree) (hx : x.1 ∈ net.nodes.keys) : y.1 ∈ net.nodes.keys :=
  ((t.rooted.mem_neighbors_iff hx).mp h.1).1

theorem Passes.nodeOrigin_eq (h : net.Passes x y) : y.2.nodeOrigin = x.1 := by
  obtain ⟨_, _, hf⟩ := h
  simp only [forward, bind, Option.bind_eq_some_iff] at hf
  obtain ⟨_, _, _, _, _, _, hf⟩ := hf
  split at hf
  case isTrue => contradiction
  case isFalse =>
    obtain ⟨_, _, hf⟩ := Option.bind_eq_some_iff.mp hf
    rw [← Option.some.inj hf]

-- A request goes away from where it has come from, so that its way is a path.
theorem Sorts.traverse_isSome (place : Call → List Call → List Call) (s : Sorts compare before) (t : net.Tree)
    (ha : net.Answering x) (hx : x.1 ∈ net.nodes.keys) (hf : net.nodes.keys.card ≤ fuel) :
    (traverse place (net.successors compare) fuel x).isSome = true := by
  refine Search.traverse_isSome (fun n x => net.Answering x ∧ x.1 ∈ net.nodes.keys ∧
    ∀ v, ∀ p : net.graph.Walk x.1 v, p.IsPath → s(x.1, x.2.nodeOrigin) ∉ p.edges → p.length < n) ?_ ?_ ?_
  case refine_1 => exact fun x ⟨_, _, h⟩ => absurd (h x.1 .nil .nil (by simp)) (by simp)
  case refine_2 =>
    intro n x y ⟨ha, hx, h⟩ hy
    have hp := (s.mem_successors ha.composed hx).mp hy
    refine ⟨ha.passes hp, hp.mem_keys t hx, fun v q hq hne => ?_⟩
    rw [hp.nodeOrigin_eq] at hne
    have hadj := (t.mem_neighbors_iff_adj x.1 y.1).mp hp.1
    have hpath := Flooding.isPath_cons t.isAcyclic hadj hq hne
    have := h v (.cons hadj q) hpath (Flooding.notMem_edges_cons hadj hpath hp.2.1)
    rw [Walk.length_cons] at this
    omega
  case refine_3 =>
    exact ⟨ha, hx, fun v p hp _ => (Flooding.length_lt_card t.mem_of_adj hx hp).trans_le hf⟩

theorem Sorts.explores {place : Call → List Call → List Call} (s : Sorts compare before) (t : net.Tree)
    (ha : net.Answering x) (hx : x.1 ∈ net.nodes.keys) (hp : ∀ s l x, x ∈ place s l ↔ x = s ∨ x ∈ l)
    (h : traverse place (net.successors compare) fuel x = some order) :
    net.Explores before (net.successors compare) x order := by
  have hreach {y} (hy : ReflTransGen net.Passes x y) : net.Answering y ∧ y.1 ∈ net.nodes.keys := by
    induction hy
    case refl => exact ⟨ha, hx⟩
    case tail hz hi => exact ⟨hi.1.passes hz, hz.mem_keys t hi.2⟩
  have hmem : ∀ y, y ∈ order ↔ ReflTransGen net.Passes x y := by
    intro y
    rw [Search.mem_traverse hp h]
    constructor
    case mp =>
      intro hy
      induction hy
      case refl => exact .refl
      case tail hz hi => exact hi.tail ((s.mem_successors (hreach hi).1.composed (hreach hi).2).mp hz)
    case mpr =>
      intro hy
      induction hy
      case refl => exact .refl
      case tail hy hz hi => exact hi.tail ((s.mem_successors (hreach hy).1.composed (hreach hy).2).mpr hz)
  refine ⟨hmem, fun y hy => ?_⟩
  have ⟨ha, hy⟩ := hreach ((hmem y).mp hy)
  exact s.visits t ha.composed hy

-- A node finds the first proposal of its part of the tree, if it does so whenever its neighbors do.
theorem Sorts.finds (serve : ℕ → NodeId → BidRequest → Option (Reply (BidProposals ℚ)))
    {place : Call → List Call → List Call} (s : Sorts compare before) (t : net.Tree)
    (hn : ∀ bid, nothing = .ok bid → bid.bids = [])
    (hserve : ∀ {fuel id request life order}, net.Composed (id, request) → net.nodes.lookup id = some life →
      life.situation.myId = id →
      (∃ below, life.followUpInOrder (net.requestNeighborBid (serve fuel) id) request.sla request.nodeOrigin
          request.accumulatedLatency compare = some below ∧ net.Finds (.ok { bids := [] }) order below) →
      ∃ reply, serve (fuel + 1) id request = some reply ∧ net.Finds nothing (place (id, request) order) reply)
    (ha : net.Answering x) (hx : x.1 ∈ net.nodes.keys)
    (h : traverse place (net.successors compare) fuel x = some order) :
    ∃ reply, serve fuel x.1 x.2 = some reply ∧ net.Finds nothing order reply := by
  induction fuel generalizing x order
  case zero => contradiction
  case succ fuel hi =>
    have ⟨life, hl⟩ := mem_keys_iff.mp hx
    have ⟨ho, hs⟩ := traverse_succ h
    rw [ho]
    apply hserve ha.composed hl (t.myId x.1 life hl)
    apply s.finds_followUpInOrder ha.composed hl (t.myId x.1 life hl) hn
    intro y hy
    have hp := (s.mem_successors ha.composed hx).mp hy
    have ⟨below, hb⟩ := Option.isSome_iff_exists.mp (hs y hy)
    rw [hb]
    exact hi (ha.passes hp) (hp.mem_keys t hx) hb

-- No node has more than one neighbor whose latency is compared.
theorem answering_exampleNetwork : exampleNetwork.Answering x := by
  intro y _ life hl
  rw [lookup_exampleNetwork] at hl
  split_ifs at hl <;> cases hl
  all_goals
    refine ⟨by simp [exampleLife], List.pairwise_filterMap.mpr (List.Pairwise.filter _ ?_)⟩
    exact List.pairwise_singleton ..

end Network
end Fog
