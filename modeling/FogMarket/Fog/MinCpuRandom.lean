import FogMarket.Fog.Propagation

open Flooding

namespace Fog.MinCpuRandom

structure BidRequest extends Fog.BidRequest where
  nbPropositionsRequired : ℕ

-- How the neighbors of a node are shuffled for a request.
structure Shuffles where
  shuffle : NodeId → BidRequest → List NodeId → List NodeId
  perm    : ∀ id request l, (shuffle id request l).Perm l

-- `(number as f64 / len as f64).ceil() as usize`, which is the greatest number if there are no neighbors.
def required (number len : ℕ) : ℕ :=
  if number ≤ len then
    1
  else if len = 0 then
    2 ^ 64 - 1
  else
    (number + len - 1) / len

section FunctionLife

variable (life : FunctionLife) (query : NodeId → BidRequest → Option (Except Failure (BidProposals ℚ)))
variable (sla : Sla) (origin : NodeId) (acc : AccumulatedLatency)

-- The neighbors are skipped and asked as in the auction, and told how many proposals are required.
def followUpToSingleNeighbor (nbPropositionsRequired : ℕ) (neighbor : NodeId) :
    Option (Except Failure (Option (BidProposals ℚ))) :=
  let ask neighbor request := (query neighbor ⟨request, nbPropositionsRequired⟩).map (Reply.mk [])
  (life.followUpToSingleNeighbor ask sla origin acc neighbor).map Reply.result

-- `try_join_all`: any error of a neighbor is one of the node.
def tryJoinAll (results : List (Except Failure (Option (BidProposals ℚ)))) : Except Failure (BidProposals ℚ) := do
  let proposals ← results.mapM id
  return { bids := proposals.reduceOption.flatMap BidProposals.bids }

def followUpToNeighbors (neighbors : List NodeId) (number : ℕ) : Option (Except Failure (BidProposals ℚ)) :=
  let nbPropositionsRequired := required number neighbors.length
  let results := (neighbors.take number).mapM
    (followUpToSingleNeighbor life query sla origin acc nbPropositionsRequired)
  results.map tryJoinAll

-- Errors of the own auction are only logged, but it may panic.
def ownProposal : Except Failure (Option (BidProposal ℚ)) :=
  match life.bidOn sla acc with
  | .ok (some (id, record)) => .ok (some { nodeId := life.situation.myId, id := id, bid := record.bid })
  | .ok none                => .ok none
  | .error .error           => .ok none
  | .error .panic           => .error .panic

end FunctionLife

variable (net : Network)

def requestNeighborBid (serve : NodeId → BidRequest → Option (Except Failure (BidProposals ℚ)))
    (id neighbor : NodeId) (request : BidRequest) : Option (Except Failure (BidProposals ℚ)) :=
  match net.exchange id neighbor (request.sla, request.accumulatedLatency) with
  | none            => some (.error .error)
  | some (sla, acc) => serve neighbor { request with sla := sla, accumulatedLatency := acc }

-- The fuel bounds the number of hops.
def bidOnNewFunctionAndTransmit (shuffles : Shuffles) :
    ℕ → NodeId → BidRequest → Option (Except Failure (BidProposals ℚ))
  | 0, _, _ => none
  | fuel + 1, id, request =>
    match net.nodes.lookup id with
    | none      => some (.error .error)
    | some life =>
      if request.nbPropositionsRequired = 0 then
        some (.ok { bids := [] })
      else
        match ownProposal life request.sla request.accumulatedLatency with
        | .error e       => some (.error e)
        | .ok myProposal =>
          let nbPropositionsRequired := request.nbPropositionsRequired - (if myProposal.isSome then 1 else 0)
          let query := requestNeighborBid net (bidOnNewFunctionAndTransmit shuffles fuel) id
          let neighbors := shuffles.shuffle id request life.situation.getNeighbors
          let proposals := followUpToNeighbors life query request.sla request.nodeOrigin request.accumulatedLatency
            neighbors nbPropositionsRequired
          proposals.map (·.map fun proposals => { bids := proposals.bids ++ myProposal.toList })

section

variable {net : Network} {life : FunctionLife} {id w origin : NodeId} {fuel number len k : ℕ}

-- What is known of an answer: it has few proposals, from different ones of the given nodes.
def Within (k : ℕ) (nodes : List NodeId) (bids : List (BidProposal ℚ)) : Prop :=
  bids.length ≤ k ∧ (bids.map BidProposal.nodeId).Subperm nodes

-- An answer is given, and if it is no error then it is within bounds.
def Bounded {α : Type} (bids : α → List (BidProposal ℚ)) (k : ℕ) (nodes : List NodeId)
    (answer : Option (Except Failure α)) : Prop :=
  ∃ result, answer = some result ∧ ∀ a, result = .ok a → Within k nodes (bids a)

theorem Within.nil (nodes : List NodeId) : Within k nodes [] :=
  ⟨Nat.zero_le k, List.nil_subperm⟩

theorem Within.append {l : ℕ} {nodes nodes' : List NodeId} {bids bids' : List (BidProposal ℚ)}
    (h : Within k nodes bids) (h' : Within l nodes' bids') : Within (k + l) (nodes ++ nodes') (bids ++ bids') := by
  refine ⟨?_, ?_⟩
  case refine_1 => simpa using Nat.add_le_add h.1 h'.1
  case refine_2 => simpa using h.2.append h'.2

theorem Within.mono {l : ℕ} {nodes nodes' : List NodeId} {bids : List (BidProposal ℚ)} (h : Within k nodes bids)
    (hk : k ≤ l) (hn : nodes.Subperm nodes') : Within l nodes' bids :=
  ⟨h.1.trans hk, h.2.trans hn⟩

theorem tryJoinAll_cons (proposals : Option (BidProposals ℚ))
    (results : List (Except Failure (Option (BidProposals ℚ)))) :
    tryJoinAll (.ok proposals :: results) =
      (tryJoinAll results).map fun below => { bids := Network.bidsOf proposals ++ below.bids } := by
  simp only [tryJoinAll, List.mapM_cons]
  cases results.mapM id <;> cases proposals <;> rfl

-- Requests are bounded by the requests to the single neighbors.
theorem bounded_tryJoinAll {ws : List NodeId} {f : NodeId → Option (Except Failure (Option (BidProposals ℚ)))}
    {g : NodeId → List NodeId} (h : ∀ w ∈ ws, Bounded Network.bidsOf k (g w) (f w)) :
    Bounded BidProposals.bids (ws.length * k) (ws.flatMap g) ((ws.mapM f).map tryJoinAll) := by
  induction ws
  case nil => exact ⟨_, rfl, fun a ha => by cases ha; exact .nil _⟩
  case cons w ws hi =>
    have ⟨result, hr, hw⟩ := h w List.mem_cons_self
    have ⟨result', hr', hws⟩ := hi fun w' hw' => h w' (List.mem_cons_of_mem w hw')
    have ⟨results, hm, hj⟩ := Option.map_eq_some_iff.mp hr'
    refine ⟨tryJoinAll (result :: results), by simp [List.mapM_cons, hr, hm], ?_⟩
    intro a ha
    cases result
    case error e => cases ha
    case ok proposals =>
      rw [tryJoinAll_cons, hj] at ha
      cases result'
      case error e => cases ha
      case ok below =>
        cases ha
        have hlen : (w :: ws).length * k = k + ws.length * k := by
          rw [List.length_cons, Nat.succ_mul, Nat.add_comm]
        rw [hlen, List.flatMap_cons]
        exact (hw proposals rfl).append (hws below rfl)

-- A neighbor which is not skipped is asked for the given number of proposals.
theorem followUpToSingleNeighbor_cases {serve : NodeId → BidRequest → Option (Except Failure (BidProposals ℚ))}
    {request : Fog.BidRequest} (hl : net.nodes.lookup id = some life) (hid : life.situation.myId = id) :
    let answer := followUpToSingleNeighbor life (requestNeighborBid net serve id) request.sla request.nodeOrigin
      request.accumulatedLatency number w
    answer = some (.ok none) ∨ (∃ e, answer = some (.error e)) ∨
    w ≠ request.nodeOrigin ∧ ∃ r, net.forward id w request = some r ∧ r.nodeOrigin = id ∧
      answer = (serve w ⟨r, number⟩).map (·.map some) := by
  simp only [followUpToSingleNeighbor, FunctionLife.followUpToSingleNeighbor]
  by_cases ho : w = request.nodeOrigin
  case pos => exact .inl (by simp [ho])
  case neg =>
    rw [if_neg ho]
    cases hlat : life.latencyTo w
    case none => exact .inl rfl
    case some latency =>
      cases hdesc : life.situation.getFogNodeNeighbor w
      case none => exact .inl rfl
      case some description =>
        let next := request.accumulatedLatency.accumulate latency description.advertisedBandwidth
        by_cases hlt : request.sla.latencyMax < computeWorseLatency next request.sla.inputMaxSize
        case pos => exact .inl (by simp [next, hlt])
        case neg =>
          cases he : net.exchange id w (request.sla, next)
          case none => exact .inr (.inl ⟨.error, by simp [next, hlt, requestNeighborBid, he]; rfl⟩)
          case some read =>
            refine .inr (.inr ⟨ho, { nodeOrigin := id, sla := read.1, accumulatedLatency := read.2 }, ?_, rfl, ?_⟩)
            case refine_1 => simp [Network.forward, hl, hlat, hdesc, next, hlt, he]
            case refine_2 =>
              simp only [next] at hlt he
              simp only [if_neg hlt, requestNeighborBid, he, hid, Option.map_map]
              rfl

theorem required_le_two (hl : 0 < len) (hk : number ≤ 2) : required number len ≤ 2 := by
  rw [required]
  split
  case isTrue => exact Nat.le_succ 1
  case isFalse =>
    rw [if_neg hl.ne']
    exact Nat.div_le_of_le_mul (by omega)

-- The neighbors which are asked for two are not asked for more than two altogether.
theorem length_mul_required_le (hk : number ≤ 2) : min number len * required number len ≤ number := by
  rw [required]
  split
  case isTrue => simp
  case isFalse h =>
    obtain rfl | rfl : len = 0 ∨ len = 1 := by omega
    case inl => simp
    case inr =>
      obtain rfl : number = 2 := by omega
      decide

-- What is asked beyond a neighbor.
def beyond (net : Network) (fuel : ℕ) (id origin : NodeId) (request : Fog.BidRequest) (w : NodeId) : List NodeId :=
  ((branch net.neighbors net.forward fuel id origin request w).getD []).map Prod.fst

theorem bounded_followUpToSingleNeighbor
    {serve : NodeId → BidRequest → Option (Except Failure (BidProposals ℚ))} {request : Fog.BidRequest}
    (hl : net.nodes.lookup id = some life) (hid : life.situation.myId = id)
    (hb : (branch net.neighbors net.forward fuel id request.nodeOrigin request w).isSome = true)
    (hs : ∀ r calls, flood net.neighbors net.forward fuel w r.nodeOrigin r = some calls →
      Bounded BidProposals.bids number (calls.map Prod.fst) (serve w ⟨r, number⟩)) :
    Bounded Network.bidsOf number (beyond net fuel id request.nodeOrigin request w)
      (followUpToSingleNeighbor life (requestNeighborBid net serve id) request.sla request.nodeOrigin
        request.accumulatedLatency number w) := by
  rcases followUpToSingleNeighbor_cases hl hid with he | ⟨e, he⟩ | ⟨ho, r, hf, hr, he⟩
  · exact ⟨_, he, fun a ha => by cases ha; exact .nil _⟩
  · exact ⟨_, he, fun a ha => by cases ha⟩
  · obtain ⟨calls, hc⟩ := exists_flood hb ho hf
    have hbeyond : beyond net fuel id request.nodeOrigin request w = calls.map Prod.fst := by
      simp [beyond, branch, ho, hf, hc]
    obtain ⟨result, hresult, hw⟩ := hs r calls (hr ▸ hc)
    refine ⟨result.map some, by rw [he, hresult]; rfl, ?_⟩
    intro a ha
    cases result
    case error e => cases ha
    case ok proposals =>
      cases ha
      exact hbeyond ▸ hw proposals rfl

theorem bounded_followUpToNeighbors
    {serve : NodeId → BidRequest → Option (Except Failure (BidProposals ℚ))} {request : Fog.BidRequest}
    {order : List NodeId} (hl : net.nodes.lookup id = some life) (hid : life.situation.myId = id)
    (hp : order.Perm (net.neighbors id)) (hk : number ≤ 2)
    (hb : ∀ w ∈ net.neighbors id,
      (branch net.neighbors net.forward fuel id request.nodeOrigin request w).isSome = true)
    (hs : ∀ w ∈ net.neighbors id, ∀ k ≤ 2, ∀ r calls,
      flood net.neighbors net.forward fuel w r.nodeOrigin r = some calls →
      Bounded BidProposals.bids k (calls.map Prod.fst) (serve w ⟨r, k⟩)) :
    Bounded BidProposals.bids number ((net.neighbors id).flatMap (beyond net fuel id request.nodeOrigin request))
      (followUpToNeighbors life (requestNeighborBid net serve id) request.sla request.nodeOrigin
        request.accumulatedLatency order number) := by
  have hsingle : ∀ w ∈ order.take number, Bounded Network.bidsOf (required number order.length)
      (beyond net fuel id request.nodeOrigin request w)
      (followUpToSingleNeighbor life (requestNeighborBid net serve id) request.sla request.nodeOrigin
        request.accumulatedLatency (required number order.length) w) := by
    intro w hw
    have hw := List.mem_of_mem_take hw
    have hn := hp.mem_iff.mp hw
    have hr := required_le_two (List.length_pos_of_mem hw) hk
    exact bounded_followUpToSingleNeighbor hl hid (hb w hn) (hs w hn _ hr)
  have ⟨result, hr, hw⟩ := bounded_tryJoinAll hsingle
  refine ⟨result, hr, fun a ha => (hw a ha).mono ?_ ?_⟩
  case refine_1 =>
    rw [List.length_take]
    exact length_mul_required_le hk
  case refine_2 =>
    have hsub := ((List.take_sublist number order).flatMap (beyond net fuel id request.nodeOrigin request)).subperm
    exact hsub.trans (hp.flatMap_right _).subperm

theorem within_ownProposal {mine : Option (BidProposal ℚ)} {sla : Sla} {acc : AccumulatedLatency}
    (hid : life.situation.myId = id) (h : ownProposal life sla acc = .ok mine) :
    Within (if mine.isSome then 1 else 0) [id] mine.toList := by
  cases mine
  case none => exact .nil _
  case some p =>
    have hp : p.nodeId = id := by
      rw [ownProposal] at h
      split at h <;> cases h
      exact hid
    refine ⟨by simp, ?_⟩
    simp [hp]

-- One or two proposals are required, and no more are returned. They come from nodes which are asked along the tree.
theorem bounded_bidOnNewFunctionAndTransmit (t : net.Tree) (shuffles : Shuffles) (hid : id ∈ net.nodes.keys)
    {request : Fog.BidRequest} {calls : List (NodeId × Fog.BidRequest)} (hk : k ≤ 2)
    (hc : flood net.neighbors net.forward fuel id request.nodeOrigin request = some calls) :
    Bounded BidProposals.bids k (calls.map Prod.fst)
      (bidOnNewFunctionAndTransmit net shuffles fuel id ⟨request, k⟩) := by
  induction fuel generalizing id request calls k
  case zero => contradiction
  case succ fuel hi =>
    have ⟨life, hl⟩ := Network.mem_keys_iff.mp hid
    have hmy := t.myId id life hl
    have ⟨hcalls, hsome⟩ := flood_succ hc
    simp only [bidOnNewFunctionAndTransmit, hl]
    split
    case isTrue => exact ⟨_, rfl, fun a ha => by cases ha; exact .nil _⟩
    case isFalse hz =>
      cases ho : ownProposal life request.sla request.accumulatedLatency
      case error e => exact ⟨_, rfl, fun a ha => by cases ha⟩
      case ok mine =>
        have hown := within_ownProposal hmy ho
        have hp : (shuffles.shuffle id ⟨request, k⟩ life.situation.getNeighbors).Perm (net.neighbors id) :=
          Network.neighbors_eq hl ▸ shuffles.perm ..
        let number := k - if mine.isSome then 1 else 0
        have hfollow : Bounded BidProposals.bids number
            ((net.neighbors id).flatMap (beyond net fuel id request.nodeOrigin request))
            (followUpToNeighbors life (requestNeighborBid net (bidOnNewFunctionAndTransmit net shuffles fuel) id)
              request.sla request.nodeOrigin request.accumulatedLatency
              (shuffles.shuffle id ⟨request, k⟩ life.situation.getNeighbors) number) :=
          bounded_followUpToNeighbors hl hmy hp (by omega) hsome
            fun w hw k hk r calls hc => hi ((t.rooted.mem_neighbors_iff hid).mp hw).1 hk hc
        have ⟨result, hresult, hw⟩ := hfollow
        simp only [number] at hresult hw
        refine ⟨result.map fun proposals => { bids := proposals.bids ++ mine.toList },
          by simp only [hresult, Option.map_some], ?_⟩
        intro a ha
        cases result
        case error e => cases ha
        case ok below =>
          cases ha
          have hle : (k - if mine.isSome then 1 else 0) + (if mine.isSome then 1 else 0) ≤ k := by
            split <;> omega
          have hnodes : calls.map Prod.fst =
              id :: (net.neighbors id).flatMap (beyond net fuel id request.nodeOrigin request) := by
            rw [hcalls, List.map_cons, List.map_flatMap]
            rfl
          rw [hnodes]
          exact ((hw below rfl).append hown).mono hle (List.perm_append_singleton ..).subperm

-- As the market sends it, a request asks for two proposals.
theorem randomTwo (t : net.Tree) (shuffles : Shuffles) (request : Fog.BidRequest)
    (hid : request.nodeOrigin ∈ net.nodes.keys) (hf : net.nodes.keys.card ≤ fuel) :
    ∃ result, bidOnNewFunctionAndTransmit net shuffles fuel request.nodeOrigin ⟨request, 2⟩ = some result ∧
      ∀ proposals, result = .ok proposals →
        proposals.bids.length ≤ 2 ∧ (proposals.bids.map BidProposal.nodeId).Nodup := by
  have hsome : (flood net.neighbors net.forward fuel request.nodeOrigin request.nodeOrigin request).isSome = true :=
    flood_isSome t.isAcyclic t.mem_neighbors_iff_adj fun x p hp _ => (length_lt_card t.mem_of_adj hid hp).trans_le hf
  have ⟨calls, hc⟩ := Option.isSome_iff_exists.mp hsome
  have ⟨result, hr, hw⟩ := bounded_bidOnNewFunctionAndTransmit t shuffles hid le_rfl hc
  refine ⟨result, hr, fun proposals ho => ⟨(hw proposals ho).1, ?_⟩⟩
  have ⟨l, hp, hs⟩ := (hw proposals ho).2
  exact hp.nodup_iff.mp ((nodup_flood t.isAcyclic t.mem_neighbors_iff_adj t.nodup_neighbors hc).sublist hs)

def Shuffles.reversing : Shuffles where
  shuffle _ _ := List.reverse
  perm _ _ l  := l.reverse_perm

theorem randomTwo_of_child :
    ∃ result, bidOnNewFunctionAndTransmit Network.exampleNetwork .reversing 2 Network.exampleRequest.nodeOrigin
        ⟨Network.exampleRequest, 2⟩ = some result ∧
      ∀ proposals, result = .ok proposals →
        proposals.bids.length ≤ 2 ∧ (proposals.bids.map BidProposal.nodeId).Nodup := by
  apply randomTwo Network.tree_exampleNetwork
  case hid => exact Network.keys_exampleNetwork ▸ by decide
  case hf  => exact Network.keys_exampleNetwork ▸ by decide

end

end Fog.MinCpuRandom
