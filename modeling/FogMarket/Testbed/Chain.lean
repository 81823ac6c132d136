import FogMarket.Library.Except
import FogMarket.Testbed.Ping

namespace Proxy.World

variable {β : Type*} (w : World β)

def update (url : String) (change : Instance → Instance) : World β :=
  { w with functions := Function.update w.functions url (change (w.functions url)) }

-- Functions which have just been deployed know of no next ones.
def start (urls : List String) : World β :=
  { w with functions := fun url => if url ∈ urls then { w.functions url with nextUrl := none } else w.functions url }

def reconfigure (url nextFunctionUrl : String) : World β :=
  w.update url (·.reconfigure nextFunctionUrl)

end Proxy.World

namespace Expe

open Proxy IotEmulation

-- A function with what else is said about it to the market.
structure Requested extends Function where
  targetNode   : String
  mem          : Int64
  cpu          : Int64
  latency      : Int64
  dockerFnName : String
  arrival      : Int64
  inputMaxSize : String

structure Reserved extends FunctionProvisioned where
  nodeID : String

def Reserved.nodeUrl (reserved : Reserved) : String :=
  Expe.nodeUrl reserved.toFunctionProvisioned

-- The request to the market.
structure PutSla where
  memory           : String
  cpu              : String
  latencyMax       : String
  maxReplica       : ℕ
  duration         : String
  functionImage    : String
  functionLiveName : String
  dataSource       : String
  inputMaxSize     : String
  targetNode       : String

def putRequestFogNode (dockerRegistry : String) (function : Requested) : PutSla where
  memory           := s!"{function.mem.toInt} MB"
  cpu              := s!"{function.cpu.toInt} millicpu"
  latencyMax       := s!"{function.latency.toInt} ms"
  maxReplica       := 1
  duration         := s!"{function.duration.toInt} ms"
  functionImage    := s!"{dockerRegistry}/{function.dockerFnName}"
  functionLiveName := function.functionName
  dataSource       := function.targetNode
  inputMaxSize     := if function.inputMaxSize = "" then "1500 B" else function.inputMaxSize
  targetNode       := function.targetNode

-- What is read of the accepted bid.
structure Reply where
  ip     : String
  port   : String
  nodeId : String
  slaId  : String

inductive Put
  | failed
  | refused (status : ℕ) (error : status ≠ 200)
  | accepted (reply : Reply)

-- A request to a function which sets the next one. Functions which have handled it have said so, but their response
-- may be lost.
structure Exchange where
  handled : Bool
  status  : Option ℕ
  ok      : status = some 200 → handled = true

-- What the other parties do: the market for each function, the time in milliseconds since the first reservation, the
-- market again for each function it has to provision, the functions, and whether the emulator has been reached.
structure Others where
  market      : ℕ → PutSla → Put
  elapsed     : ℤ
  provision   : String → Option ℕ
  reconfigure : ℕ → Exchange
  cron        : Bool

-- The registration fails with or without an error.
inductive Failure
  | err
  | refused
  deriving DecidableEq

-- The integer which `strconv.Atoi` reads, however large it is.
def readInt (s : String) : Option ℤ :=
  let digits (l : List Char) : Option ℤ :=
    if l ≠ [] ∧ l.all Char.isDigit then some (Nat.ofDigitChars 10 l 0) else none
  match s.toList with
  | '-' :: l => (digits l).map Neg.neg
  | '+' :: l => digits l
  | l        => digits l

-- `strconv.Atoi`
def atoi (s : String) : Option Int64 :=
  (readInt s).bind fun n => if -2 ^ 63 ≤ n ∧ n < 2 ^ 63 then some (Int64.ofInt n) else none

variable (others : Others) (dockerRegistry : String)

-- The functions after the first one are close to the node of the one before them.
def retarget (previous : Option Reserved) (function : Requested) : Requested :=
  match previous with
  | none          => function
  | some previous => { function with targetNode := previous.nodeID, firstNodeIP := some previous.faasIP }

def reserve : ℕ → Option Reserved → List Requested → Except Failure (List (PutSla × Reserved))
  | _, _, []                           => .ok []
  | ii, previous, function :: functions =>
    let sla := putRequestFogNode dockerRegistry (retarget previous function)
    match others.market ii sla with
    | .failed         => .error .err
    | .refused _ _    => .error .refused
    | .accepted reply =>
      match atoi reply.port with
      | none      => .error .refused
      | some port => do
        let reserved : Reserved := {
          faasIP := reply.ip, faasPort := port, functionID := reply.slaId, nodeID := reply.nodeId
        }
        let responses ← reserve (ii + 1) (some reserved) functions
        .ok ((sla, reserved) :: responses)

-- The answers come in any order.
def postProvisionChainFunctions (urls : List Reserved) : Except Failure (List ℕ) :=
  (urls.mapM fun url => others.provision url.functionID).elim (.error .err) .ok

-- A status other than 200 ends the loop, but is no error.
def postRequestChainFunctions {β : Type} :
    ℕ → World β → List ℕ → List Reserved → Except Failure (World β × List ℕ)
  | ii, w, statusCodes, url :: next :: urls =>
    let exchange := others.reconfigure ii
    let w := if exchange.handled then w.reconfigure url.nodeUrl next.nodeUrl else w
    match exchange.status with
    | none        => .error .err
    | some status =>
      if status ≠ 200 then
        .ok (w, [])
      else
        postRequestChainFunctions (ii + 1) w (statusCodes ++ [status]) (next :: urls)
  | _, w, statusCodes, _ => .ok (w, statusCodes)

-- What has come of a successful registration.
structure Registered (β : Type) where
  puts   : List (PutSla × Reserved)
  world  : World β
  config : CronConfig

def Registered.urls {β : Type} (registered : Registered β) : List String :=
  registered.puts.map (·.2.nodeUrl)

-- The first function is the one which is pinged. Nobody registers an empty list, where it panics.
def registerNewFunctions {β : Type} (env : Env) (w : World β) (functions : List Requested) :
    Option (Except Failure (Registered β)) :=
  functions.head?.map fun first => do
    let puts ← reserve others dockerRegistry 0 none functions
    let responses := puts.map Prod.snd
    if others.elapsed * 2 > first.duration.toInt then
      .error .refused
    else
      let statusCodes ← postProvisionChainFunctions others responses
      if statusCodes.any (· ≠ 200) then
        .error .refused
      else
        let w := w.start (responses.map Reserved.nodeUrl)
        let (w, statusCodes) ← postRequestChainFunctions others 0 w [] responses
        if statusCodes.any (· ≠ 200) then
          .error .refused
        else if others.cron = false then
          .error .err
        else
          match responses with
          | []            => .error .refused
          | response :: _ =>
            match handleCron "PUT" (putRequestIotEmulation env response.toFunctionProvisioned first.toFunction) with
            | .error _   => .error .refused
            | .ok config => .ok ⟨puts, w, config⟩

-- What the market writes: addresses of version 4, ports of 16 bits, and ids which are not given twice.
structure Others.Lawful : Prop where
  ip    : ∀ {ii sla reply}, others.market ii sla = .accepted reply → Url.Dotted reply.ip
  port  : ∀ {ii sla reply}, others.market ii sla = .accepted reply →
    ∃ port : BitVec 16, reply.port = toString port.toNat
  slaId : ∀ {ii ii' sla sla' reply reply'}, others.market ii sla = .accepted reply →
    others.market ii' sla' = .accepted reply' → ii ≠ ii' → reply.slaId ≠ reply'.slaId

-- A function tells of the next one: it is able to, has been told, and the registration has come so far.
structure Linked {β : Type} (reconfigure : ℕ → Exchange) (w : World β) (urls : List String) (i : ℕ) : Prop where
  image   : ∃ url, urls[i]? = some url ∧ (w.functions url).image = .python
  handled : (reconfigure i).handled = true
  before  : ∀ j < i, (reconfigure j).status = some 200

-- The functions up to the last one which is linked.
structure Leading {β : Type} (reconfigure : ℕ → Exchange) (w : World β) (urls : List String) (k : ℕ) : Prop where
  inside : k < urls.length
  linked : ∀ i < k, Linked reconfigure w urls i
  broken : k + 1 < urls.length → ¬Linked reconfigure w urls k

variable {others : Others} {dockerRegistry : String} {β : Type} {w w' : World β} {url v : String} {ii i : ℕ}
variable {previous : Option Reserved} {function : Requested} {functions : List Requested}
variable {put : PutSla × Reserved} {puts : List (PutSla × Reserved)} {reserved next : Reserved}
variable {responses : List Reserved} {codes codes' : List ℕ}

theorem readInt_toString {n : ℕ} : readInt (toString n) = some (n : ℤ) := by
  have hl : (toString n).toList = Nat.toDigits 10 n := Nat.toList_repr
  have hd : (Nat.toDigits 10 n).all Char.isDigit = true :=
    List.all_eq_true.mpr fun c => Decimal.isDigit_toDigits
  rw [readInt, hl]
  split
  case h_1 he => simp [he] at hd
  case h_2 he => simp [he] at hd
  case h_3 =>
    simp only [ne_eq, Nat.toDigits_ne_nil, not_false_eq_true, hd, and_self, if_true, Nat.ofDigitChars_ten_toDigits]

theorem atoi_toString (p : BitVec 16) : atoi (toString p.toNat) = some (Int64.ofNat p.toNat) := by
  have hn : p.toNat < 2 ^ 63 := Nat.lt_trans p.isLt (by decide)
  have hr : -2 ^ 63 ≤ (p.toNat : ℤ) ∧ (p.toNat : ℤ) < 2 ^ 63 := by omega
  rw [atoi, readInt_toString, Option.bind_some, if_pos hr]
  rfl

theorem reserve_cons (h : reserve others dockerRegistry ii previous (function :: functions) = .ok puts) :
    ∃ reply port rest,
      others.market ii (putRequestFogNode dockerRegistry (retarget previous function)) = .accepted reply ∧
      atoi reply.port = some port ∧
      reserve others dockerRegistry (ii + 1) (some ⟨⟨reply.ip, port, reply.slaId⟩, reply.nodeId⟩) functions =
        .ok rest ∧
      puts = (putRequestFogNode dockerRegistry (retarget previous function),
        ⟨⟨reply.ip, port, reply.slaId⟩, reply.nodeId⟩) :: rest := by
  rw [reserve] at h
  split at h
  case h_1 => contradiction
  case h_2 => contradiction
  case h_3 reply hm =>
    split at h
    case h_1 => contradiction
    case h_2 port hp =>
      obtain ⟨rest, hr, h⟩ := Except.bind_eq_ok_iff.mp h
      cases h
      exact ⟨reply, port, rest, hm, hp, hr, rfl⟩

theorem length_reserve (h : reserve others dockerRegistry ii previous functions = .ok puts) :
    puts.length = functions.length := by
  induction functions generalizing ii previous puts
  case nil =>
    cases h
    rfl
  case cons function functions hi =>
    obtain ⟨_, _, rest, _, _, hr, rfl⟩ := reserve_cons h
    rw [List.length_cons, hi hr, List.length_cons]

-- Each function is asked for close to the one before it.
theorem isChain_reserve (h : reserve others dockerRegistry ii previous functions = .ok puts) :
    puts.IsChain (fun put next => next.1.targetNode = put.2.nodeID ∧ next.1.dataSource = put.2.nodeID) := by
  induction functions generalizing ii previous puts
  case nil =>
    cases h
    exact .nil
  case cons function functions hi =>
    obtain ⟨reply, port, rest, _, _, hr, rfl⟩ := reserve_cons h
    cases functions
    case nil =>
      cases hr
      exact .singleton _
    case cons next functions =>
      have hc := hi hr
      obtain ⟨_, _, rest, _, _, _, rfl⟩ := reserve_cons hr
      exact .cons_cons ⟨rfl, rfl⟩ hc

theorem market_of_reserve (h : reserve others dockerRegistry ii previous functions = .ok puts)
    (hi : puts[i]? = some put) :
    ∃ reply port, others.market (ii + i) put.1 = .accepted reply ∧ atoi reply.port = some port ∧
      put.2 = ⟨⟨reply.ip, port, reply.slaId⟩, reply.nodeId⟩ := by
  induction functions generalizing ii previous puts i
  case nil =>
    cases h
    contradiction
  case cons function functions ih =>
    obtain ⟨reply, port, rest, hm, hp, hr, rfl⟩ := reserve_cons h
    cases i
    case zero =>
      cases hi
      exact ⟨reply, port, hm, hp, rfl⟩
    case succ i =>
      have := ih hr hi
      rwa [Nat.add_right_comm, Nat.add_assoc] at this

theorem nodeUrl_eq {provisioned : FunctionProvisioned} {port : ℕ} (h : provisioned.faasPort.toInt = port) :
    nodeUrl provisioned = "http://" ++ provisioned.faasIP ++ ":" ++ toString port ++ "/" ++
      ("function/fogfn-" ++ provisioned.functionID) := by
  have hu : nodeUrl provisioned = "http://" ++ provisioned.faasIP ++ ":" ++ toString port ++ "/function/fogfn-" ++
      provisioned.functionID := by
    rw [nodeUrl, h]
    rfl
  have hs : "/function/fogfn-" = "/" ++ "function/fogfn-" := by decide
  rw [hu, hs, ← String.append_assoc]
  exact String.append_assoc

theorem sound_of_reserve (lawful : others.Lawful)
    (h : reserve others dockerRegistry ii previous functions = .ok puts) (hp : put ∈ puts) :
    Url.Dotted put.2.faasIP ∧ ∃ port : ℕ, put.2.faasPort.toInt = port := by
  obtain ⟨i, hi⟩ := List.mem_iff_getElem?.mp hp
  obtain ⟨reply, port, hm, hp, he⟩ := market_of_reserve h hi
  obtain ⟨p, hr⟩ := lawful.port hm
  rw [hr, atoi_toString] at hp
  cases hp
  rw [he]
  exact ⟨lawful.ip hm, p.toNat, Int64.toInt_ofNat_of_lt (Nat.lt_trans p.isLt (by decide))⟩

-- The URLs of the functions lead to their nodes.
theorem at_nodeUrl (lawful : others.Lawful) (h : reserve others dockerRegistry ii previous functions = .ok puts)
    (hp : put ∈ puts) : Url.At put.2.nodeUrl put.2.faasIP := by
  obtain ⟨hi, port, hn⟩ := sound_of_reserve lawful h hp
  exact ⟨hi, port, _, nodeUrl_eq hn⟩

theorem functionID_of_nodeUrl (lawful : others.Lawful)
    (h : reserve others dockerRegistry ii previous functions = .ok puts) {put' : PutSla × Reserved}
    (hp : put ∈ puts) (hp' : put' ∈ puts) (he : put.2.nodeUrl = put'.2.nodeUrl) :
    put.2.functionID = put'.2.functionID := by
  obtain ⟨hi, port, hn⟩ := sound_of_reserve lawful h hp
  obtain ⟨hi', port', hn'⟩ := sound_of_reserve lawful h hp'
  rw [Reserved.nodeUrl, Reserved.nodeUrl, nodeUrl_eq hn, nodeUrl_eq hn'] at he
  have hl := congrArg String.toList (Url.path_inj hi hi' he)
  rw [String.toList_append, String.toList_append] at hl
  exact String.toList_inj.mp (List.append_cancel_left hl)

theorem nodup_urls (lawful : others.Lawful) (h : reserve others dockerRegistry ii previous functions = .ok puts) :
    (puts.map (·.2.nodeUrl)).Nodup := by
  apply List.nodup_iff_getElem?_ne_getElem?.mpr
  intro i j hij hj he
  rw [List.length_map] at hj
  have hi := Nat.lt_trans hij hj
  rw [List.getElem?_map, List.getElem?_map, List.getElem?_eq_getElem hi, List.getElem?_eq_getElem hj] at he
  have hid := functionID_of_nodeUrl lawful h (List.getElem_mem hi) (List.getElem_mem hj) (Option.some.inj he)
  obtain ⟨reply, _, hm, _, hr⟩ := market_of_reserve h (List.getElem?_eq_getElem hi)
  obtain ⟨reply', _, hm', _, hr'⟩ := market_of_reserve h (List.getElem?_eq_getElem hj)
  rw [hr, hr'] at hid
  exact lawful.slaId hm hm' (by omega) hid

section Links

theorem functions_update_of_ne {change : Instance → Instance} (h : v ≠ url) :
    (w.update url change).functions v = w.functions v :=
  Function.update_of_ne h _ _

theorem functions_update {change : Instance → Instance} :
    (w.update url change).functions url = change (w.functions url) :=
  Function.update_self _ _ _

theorem nextUrl_start {urls : List String} (h : url ∈ urls) : ((w.start urls).functions url).nextUrl = none := by
  simp [World.start, h]

theorem next_of_nextUrl_eq_none (h : (w.functions url).nextUrl = none) : w.next url = none := by
  rw [World.next, Instance.redirect, h]
  cases (w.functions url).image
  case echo => rfl
  case python => rfl

-- The request to a function about the next one.
def tell (exchange : Exchange) (w : World β) (url next : String) : World β :=
  if exchange.handled then w.reconfigure url next else w

variable {exchange : Exchange}

theorem functions_tell_of_ne (h : v ≠ url) {next : String} :
    (tell exchange w url next).functions v = w.functions v := by
  rw [tell]
  split
  case isTrue => exact functions_update_of_ne h
  case isFalse => rfl

theorem next_tell (hw : (w.functions url).nextUrl = none) (hv : v ≠ "") :
    (tell exchange w url v).next url =
      if (w.functions url).image = .python ∧ exchange.handled then some v else none := by
  rw [tell]
  cases hh : exchange.handled
  case false =>
    simp only [Bool.false_eq_true, and_false, if_false]
    exact next_of_nextUrl_eq_none hw
  case true =>
    simp only [if_true, and_true]
    rw [World.next, World.reconfigure, functions_update, Instance.reconfigure, Instance.redirect]
    cases hi : (w.functions url).image
    case echo => simp
    case python => simp [hv]

theorem image_tell {next : String} :
    ((tell exchange w url next).functions v).image = (w.functions v).image := by
  by_cases h : v = url
  case neg => rw [functions_tell_of_ne h]
  case pos =>
    subst h
    rw [tell]
    split
    case isTrue => rw [World.reconfigure, functions_update, Instance.reconfigure]
    case isFalse => rfl

theorem postRequestChainFunctions_cons
    (h : postRequestChainFunctions others ii w codes (reserved :: next :: responses) = .ok (w', codes')) :
    w' = tell (others.reconfigure ii) w reserved.nodeUrl next.nodeUrl ∧ (others.reconfigure ii).status ≠ some 200 ∨
      (others.reconfigure ii).status = some 200 ∧
        postRequestChainFunctions others (ii + 1) (tell (others.reconfigure ii) w reserved.nodeUrl next.nodeUrl)
          (codes ++ [200]) (next :: responses) = .ok (w', codes') := by
  rw [postRequestChainFunctions] at h
  split at h
  case h_1 => contradiction
  case h_2 status hs =>
    split at h
    case isTrue hn =>
      cases h
      left
      exact ⟨rfl, by simpa [hs] using hn⟩
    case isFalse hn =>
      have hn := not_not.mp hn
      right
      exact ⟨hn ▸ hs, hn ▸ h⟩

-- Only the functions themselves learn of next ones.
theorem functions_of_chain (h : postRequestChainFunctions others ii w codes responses = .ok (w', codes'))
    (hv : v ∉ responses.map Reserved.nodeUrl) : w'.functions v = w.functions v := by
  induction responses generalizing ii w codes
  case nil =>
    cases h
    rfl
  case cons reserved responses hi =>
    cases responses
    case nil =>
      cases h
      rfl
    case cons next responses =>
      rw [List.map_cons, List.mem_cons, not_or] at hv
      have ht : (tell (others.reconfigure ii) w reserved.nodeUrl next.nodeUrl).functions v = w.functions v :=
        functions_tell_of_ne hv.left
      obtain ⟨rfl, _⟩ | ⟨_, h⟩ := postRequestChainFunctions_cons h
      case inl => exact ht
      case inr => rw [hi h hv.right, ht]

theorem Linked.succ {reconfigure : ℕ → Exchange} {urls : List String} (hs : (reconfigure 0).status = some 200) :
    Linked reconfigure w (url :: urls) (i + 1) ↔ Linked (fun j => reconfigure (j + 1)) w urls i := by
  constructor
  case mp =>
    intro h
    exact ⟨h.image, h.handled, fun j hj => h.before (j + 1) (Nat.succ_lt_succ hj)⟩
  case mpr =>
    intro h
    refine ⟨h.image, h.handled, ?_⟩
    intro j hj
    cases j
    case zero => exact hs
    case succ j => exact h.before j (Nat.lt_of_succ_lt_succ hj)

theorem Leading.zero {reconfigure : ℕ → Exchange} {urls : List String} (h : ¬Linked reconfigure w (url :: urls) 0) :
    Leading reconfigure w (url :: urls) 0 where
  inside := Nat.succ_pos _
  linked := fun _ hi => absurd hi (Nat.not_lt_zero _)
  broken := fun _ => h

theorem Leading.succ {reconfigure : ℕ → Exchange} {urls : List String} {k : ℕ}
    (hs : (reconfigure 0).status = some 200) (h0 : Linked reconfigure w (url :: urls) 0)
    (h : Leading (fun j => reconfigure (j + 1)) w urls k) : Leading reconfigure w (url :: urls) (k + 1) where
  inside := Nat.succ_lt_succ h.inside
  linked := by
    intro i hi
    cases i
    case zero => exact h0
    case succ i => exact (Linked.succ hs).mpr (h.linked i (Nat.lt_of_succ_lt_succ hi))
  broken := by
    intro hk
    rw [Linked.succ hs]
    exact h.broken (Nat.lt_of_succ_lt_succ hk)

theorem linked_zero {reconfigure : ℕ → Exchange} {urls : List String} :
    Linked reconfigure w (url :: urls) 0 ↔ (w.functions url).image = .python ∧ (reconfigure 0).handled = true := by
  constructor
  case mp =>
    intro h
    obtain ⟨v, hv, hi⟩ := h.image
    cases hv
    exact ⟨hi, h.handled⟩
  case mpr =>
    rintro ⟨hi, hh⟩
    exact ⟨⟨url, rfl, hi⟩, hh, fun j hj => absurd hj (Nat.not_lt_zero j)⟩

theorem nodeUrl_ne : reserved.nodeUrl ≠ "" := by
  intro h
  have hn := congrArg String.toList h
  simp only [Reserved.nodeUrl, nodeUrl, String.toList_append] at hn
  simp at hn
  exact absurd hn.right.right.left (by decide)

theorem next_congr (h : w'.functions v = w.functions v) : w'.next v = w.next v := by
  rw [World.next, h, World.next]

-- Behind the first function come those which are linked.
theorem ends_of_chain (h : postRequestChainFunctions others ii w codes (reserved :: responses) = .ok (w', codes'))
    (hd : ((reserved :: responses).map Reserved.nodeUrl).Nodup)
    (hw : ∀ r ∈ reserved :: responses, (w.functions r.nodeUrl).nextUrl = none) :
    ∃ k, Leading (fun i => others.reconfigure (ii + i)) w' ((reserved :: responses).map Reserved.nodeUrl) k ∧
      Successor.Ends w'.next reserved.nodeUrl (((reserved :: responses).map Reserved.nodeUrl).take (k + 1)) := by
  induction responses generalizing reserved ii w codes
  case nil =>
    cases h
    refine ⟨0, ⟨Nat.succ_pos _, fun _ hi => absurd hi (Nat.not_lt_zero _), fun h => absurd h (lt_irrefl _)⟩, ?_⟩
    exact .last (next_of_nextUrl_eq_none (hw reserved (.head _)))
  case cons next responses hi =>
    have hn := hw reserved (.head _)
    obtain ⟨hm, hd'⟩ := List.nodup_cons.mp hd
    have hf : w'.functions reserved.nodeUrl =
        (tell (others.reconfigure ii) w reserved.nodeUrl next.nodeUrl).functions reserved.nodeUrl := by
      obtain ⟨rfl, _⟩ | ⟨_, h⟩ := postRequestChainFunctions_cons h
      case inl => rfl
      case inr => exact functions_of_chain h hm
    have hs := (next_congr hf).trans (next_tell hn nodeUrl_ne)
    have hz : Linked (fun i => others.reconfigure (ii + i)) w'
          ((reserved :: next :: responses).map Reserved.nodeUrl) 0 ↔
        (w.functions reserved.nodeUrl).image = .python ∧ (others.reconfigure ii).handled = true := by
      rw [List.map_cons, linked_zero, hf, image_tell]
      rfl
    by_cases hl : (w.functions reserved.nodeUrl).image = .python ∧ (others.reconfigure ii).handled = true
    case neg => exact ⟨0, .zero (mt hz.mp hl), .last (hs.trans (if_neg hl))⟩
    case pos =>
      rw [if_pos hl] at hs
      have hw' : ∀ r ∈ next :: responses, ((tell (others.reconfigure ii) w reserved.nodeUrl next.nodeUrl).functions
          r.nodeUrl).nextUrl = none := by
        intro r hr
        have hne : r.nodeUrl ≠ reserved.nodeUrl := fun he => hm (he ▸ List.mem_map_of_mem hr)
        rw [functions_tell_of_ne hne]
        exact hw r (.tail _ hr)
      obtain ⟨rfl, hc⟩ | ⟨hc, h⟩ := postRequestChainFunctions_cons h
      case inl =>
        refine ⟨1, ⟨by simp, ?_, fun _ hk => hc (hk.before 0 one_pos)⟩, ?_⟩
        case refine_1 =>
          intro i hi
          rw [Nat.lt_one_iff.mp hi]
          exact hz.mpr hl
        case refine_2 => exact .cons hs (.last (next_of_nextUrl_eq_none (hw' next (.head _))))
      case inr =>
        obtain ⟨k, hk, he⟩ := hi h hd' hw'
        refine ⟨k + 1, .succ hc (hz.mpr hl) ?_, .cons hs he⟩
        simp only [Nat.add_assoc, Nat.add_comm 1] at hk ⊢
        exact hk

end Links

variable {env : Env} {registered : Registered β} {first : Requested}

theorem registerNewFunctions_eq_ok
    (h : registerNewFunctions others dockerRegistry env w functions = some (.ok registered)) :
    reserve others dockerRegistry 0 none functions = .ok registered.puts ∧
      ∃ first response responses codes, functions.head? = some first ∧
        registered.puts.map Prod.snd = response :: responses ∧
        postRequestChainFunctions others 0 (w.start ((response :: responses).map Reserved.nodeUrl)) []
          (response :: responses) = .ok (registered.world, codes) ∧
        handleCron "PUT" (putRequestIotEmulation env response.toFunctionProvisioned first.toFunction) =
          .ok registered.config := by
  obtain ⟨first, hf, h⟩ := Option.map_eq_some_iff.mp h
  obtain ⟨puts, hp, h⟩ := Except.bind_eq_ok_iff.mp h
  dsimp only at h
  split at h
  case isTrue => cases h
  case isFalse =>
    obtain ⟨_, _, h⟩ := Except.bind_eq_ok_iff.mp h
    split at h
    case isTrue => cases h
    case isFalse =>
      obtain ⟨⟨w', codes⟩, hw, h⟩ := Except.bind_eq_ok_iff.mp h
      dsimp only at h
      split at h
      case isTrue => cases h
      case isFalse =>
        split at h
        case isTrue => cases h
        case isFalse =>
          split at h
          case h_1 => cases h
          case h_2 response responses hr =>
            split at h
            case h_1 => cases h
            case h_2 config hc =>
              cases h
              exact ⟨hp, first, response, responses, codes, hf, hr, hr ▸ hw, hc⟩

-- A ping of a chain which has been registered goes through the functions up to the first one which is not linked to
-- the next, each of which has been asked for close to the one before it. The registration succeeds no matter which
-- one that is.
theorem ping_of_registered (lawful : others.Lawful)
    (h : registerNewFunctions others dockerRegistry env w functions = some (.ok registered))
    {id boundary : String} {content : ReqContent} {body : β} {n : ℕ} (hc : registered.config.content = some content)
    (hid : id ≠ "") (hn : functions.length < n) :
    registered.puts.IsChain (fun put next => next.1.targetNode = put.2.nodeID ∧ next.1.dataSource = put.2.nodeID) ∧
      ∃ k outcome, Leading others.reconfigure registered.world registered.urls k ∧
        ping registered.world id n boundary registered.config body = some outcome ∧
        Pinged registered.world id registered.config (registered.urls.take (k + 1)) body outcome := by
  obtain ⟨hp, first, response, responses, codes, hf, hr, hw, hcron⟩ := registerNewFunctions_eq_ok h
  have hu : registered.urls = (response :: responses).map Reserved.nodeUrl := by
    rw [← hr, List.map_map]
    rfl
  have hd := nodup_urls lawful hp
  obtain ⟨k, hk, he⟩ := ends_of_chain hw (hu ▸ hd) fun r hr => nextUrl_start (List.mem_map_of_mem hr)
  have hnode : registered.config.nodeUrl = response.nodeUrl := by
    rw [(handleCron_eq_ok_iff.mp hcron).left]
    rfl
  simp only [Nat.zero_add] at hk
  rw [← hu] at hk he
  rw [← hnode] at he
  have hl : (registered.urls.take (k + 1)).length < n := by
    have he : registered.urls.length = functions.length := (List.length_map _).trans (length_reserve hp)
    exact Nat.lt_of_le_of_lt (List.length_take_le' _ _) (he ▸ hn)
  have ha : ∀ url ∈ registered.urls.take (k + 1), ∃ host, Url.At url host := by
    intro url hm
    obtain ⟨put, hput, rfl⟩ := List.mem_map.mp (List.mem_of_mem_take hm)
    exact ⟨_, at_nodeUrl lawful hp hput⟩
  obtain ⟨outcome, ho, hs⟩ := ping_pinged he ha hc hid hl
  exact ⟨isChain_reserve hp, k, outcome, hk, ho, hs⟩

def speech : Requested where
  toFunction   := waiting 0
  targetNode   := "1"
  mem          := 500
  cpu          := 1000
  latency      := 30
  dockerFnName := "speech"
  arrival      := 0
  inputMaxSize := ""

-- The gateway turns the function down which should be told of the next one.
def turnedDown : Others where
  market
    | 0, _ => .accepted ⟨"10.0.0.3", "31112", "2", "6"⟩
    | 1, _ => .accepted ⟨"10.0.0.4", "31112", "3", "7"⟩
    | _, _ => .failed
  elapsed     := 0
  provision   := fun _ => some 200
  reconfigure := fun _ => ⟨false, some 502, by decide⟩
  cron        := true

theorem lawful_turnedDown : turnedDown.Lawful where
  ip    := by
    rintro (_ | _ | _) sla reply ⟨⟩
    all_goals exact Url.dotted_of_all (by decide)
  port  := by
    rintro (_ | _ | _) sla reply ⟨⟩
    all_goals exact ⟨31112, by decide⟩
  slaId := by
    rintro (_ | _ | _) (_ | _ | _) sla sla' reply reply' ⟨⟩ ⟨⟩ hn
    all_goals first | decide | exact absurd rfl hn

def working : World String where
  functions := fun _ => ⟨.python, none, none, none⟩
  answer    := fun _ body => .function 200 body
  delivers  := fun _ _ => true
  returns   := fun _ _ => true
  text      := id

def toSpeech : Reserved where
  faasIP     := "10.0.0.3"
  faasPort   := 31112
  functionID := "6"
  nodeID     := "2"

def toSentiment : Reserved where
  faasIP     := "10.0.0.4"
  faasPort   := 31112
  functionID := "7"
  nodeID     := "3"

def cut : Registered String where
  puts   := [
    (putRequestFogNode "" speech, toSpeech),
    (putRequestFogNode "" (retarget (some toSpeech) speech), toSentiment)
  ]
  world  := working.start [toSpeech.nodeUrl, toSentiment.nodeUrl]
  config := received testbed toSpeech.toFunctionProvisioned speech.toFunction

-- The registration succeeds, and the second function never gets anything.
theorem ping_of_turnedDown :
    registerNewFunctions turnedDown "" testbed working [speech, speech] = some (.ok cut) ∧
      ∃ outcome, ping cut.world "9" 3 "" cut.config "audio" = some outcome ∧
        Pinged cut.world "9" cut.config [toSpeech.nodeUrl] "audio" outcome := by
  have hr : registerNewFunctions turnedDown "" testbed working [speech, speech] = some (.ok cut) := rfl
  have h : ∃ k outcome, Leading turnedDown.reconfigure cut.world cut.urls k ∧
      ping cut.world "9" 3 "" cut.config "audio" = some outcome ∧
      Pinged cut.world "9" cut.config (cut.urls.take (k + 1)) "audio" outcome :=
    (ping_of_registered lawful_turnedDown hr (rfl : cut.config.content = some .ping) (by decide) (by decide)).right
  obtain ⟨k, outcome, hk, ho, hp⟩ := h
  cases k
  case zero => exact ⟨hr, outcome, ho, hp⟩
  case succ k =>
    have hl : false = true := (hk.linked 0 (Nat.succ_pos k)).handled
    cases hl

end Expe
