import FogMarket.Testbed.Cron
import FogMarket.Testbed.Proxy

namespace IotEmulation

open Proxy

variable {β : Type*}

def ReqContent.contentType (boundary : String) : ReqContent → String
  | ping  => "application/json"
  | audio => "audio/wav"
  | image => "multipart/form-data; boundary=" ++ boundary

-- A request with one of the bodies for the content.
def ReqContent.newRequest (content : ReqContent) (boundary : String) (config : CronConfig) (body : β) :
    Option (Request β) :=
  (Url.hostname config.nodeUrl).map fun _ => {
    method := "POST"
    url    := config.nodeUrl
    header := Header.empty.set (.other "Content-Type") (content.contentType boundary)
    body   := body
  }

-- A ping goes to the proxy on the first node. Without a content, there is nothing to make a request.
def ping (w : World β) (newId : String) (n : ℕ) (boundary : String) (config : CronConfig) (body : β) :
    Option (Outcome β) :=
  match config.content.bind fun content => content.newRequest boundary config body with
  | none     => some .lost
  | some req =>
    w.send (w.proxy newId n config.firstNodeIp)
      { req with header := (req.header.set .tags config.tags).set .slaId config.functionId }

-- What the proxy writes down about a ping which succeeds.
def entry (id : String) (config : CronConfig) : Point where
  slaId         := orElse config.functionId "<no-sla-id>"
  reqId         := id
  tags          := "<no-tags>"
  firstReqId    := true
  serviceStatus := 200
  status        := 200

-- Pings get to the first proxy and back.
def Reaches (w : World β) (config : CronConfig) : Prop :=
  w.Carries false config.nodeUrl

-- Whatever breaks down behind the first proxy, it answers. It says success if all the functions work, and each of
-- them has been called and written down then.
structure Pinged (w : World β) (id : String) (config : CronConfig) (urls : List String) (body : β)
    (outcome : Outcome β) : Prop where
  follows  : Follows w id urls body outcome.calls
  answered : outcome.response ≠ none ↔ Reaches w config
  success  : ∀ body', outcome.success = some body' ↔
    w.compose urls body = some body' ∧ (∀ url ∈ urls, w.Carries true url) ∧ Reaches w config
  points   : outcome.success ≠ none →
    outcome.calls.map (·.request.url) = urls ∧
      outcome.points = (urls.reverse.map fun url => w.point id url 200 200) ++ [entry id config]

end IotEmulation

namespace Proxy.World

variable {β : Type*} (w : World β)

-- What the first proxy makes of what the one of the function says.
def enter (newId preSetSlaId : String) (sent : Outcome β) : Outcome β :=
  match sent.response with
  | none      => { sent with response := some (internalServerError w.text "Error sending proxy request") }
  | some resp => ⟨some { resp with header := .empty }, sent.calls, sent.points ++ [{
      slaId         := orElse (resp.header.get .slaId) preSetSlaId
      reqId         := newId
      tags          := orElse (resp.header.get .tags) "<no-tags>"
      firstReqId    := true
      serviceStatus := resp.status
      status        := resp.status
    }]⟩

variable {w} {newId host hostname : String} {r : Request β} {n : ℕ} {outcome : Outcome β}

theorem proxy_first (hid : r.header .requestId = []) (hu : Url.At r.url hostname) :
    w.proxy newId (n + 1) host r =
      (w.send (w.proxy newId n hostname) { r with header := r.header.add .requestId newId }).map
        (w.enter newId (orElse (r.header.get .slaId) "<no-sla-id>")) := by
  have he : r.header.get .requestId = "" := by rw [Header.get, hid]; rfl
  simp [proxy, handleRequest, he, hu.hostname, transmitRequest, (at_proxyUrl hu.dotted).hostname]
  rw [Option.map_eq_bind]
  refine congrArg (Option.bind _) (funext fun sent => ?_)
  cases hs : sent.response
  case none => simp [enter, hs]
  case some resp => simp [enter, hs]

theorem response_enter {preSetSlaId : String} : (w.enter newId preSetSlaId outcome).response ≠ none := by
  rw [enter]
  split
  case h_1 => simp
  case h_2 => simp

theorem calls_enter {preSetSlaId : String} : (w.enter newId preSetSlaId outcome).calls = outcome.calls := by
  rw [enter]
  split
  case h_1 => rfl
  case h_2 => rfl

theorem success_enter {preSetSlaId : String} : (w.enter newId preSetSlaId outcome).success = outcome.success := by
  rw [enter, Outcome.success, Outcome.success]
  cases outcome.response
  case none => rfl
  case some => rfl

theorem points_enter {preSetSlaId : String} (h : outcome.success ≠ none)
    (hp : ∀ resp ∈ outcome.response, resp.header.get .slaId = "" ∧ resp.header.get .tags = "") :
    (w.enter newId preSetSlaId outcome).points =
      outcome.points ++ [⟨preSetSlaId, newId, "<no-tags>", true, 200, 200⟩] := by
  rw [Outcome.success] at h
  rw [enter]
  cases hr : outcome.response
  case none => simp [hr] at h
  case some resp =>
    obtain ⟨hs, ht⟩ := hp resp hr
    have h200 : resp.status = 200 := by
      by_contra hs
      simp [hr, hs] at h
    simp [h200, hs, ht, orElse]

end Proxy.World

namespace IotEmulation

open Proxy

variable {β : Type*} {w : World β} {id boundary : String} {config : CronConfig} {content : ReqContent}
variable {urls : List String} {body : β} {n : ℕ}

-- A ping goes to the first proxy, from there to the one of the function, and all the way back.
theorem ping_serves (he : Successor.Ends w.next config.nodeUrl urls) (hu : ∀ url ∈ urls, ∃ host, Url.At url host)
    (hc : config.content = some content) (hne : id ≠ "") (hn : urls.length ≤ n) :
    ∃ outcome, Serves w id urls body outcome ∧ ping w id (n + 1) boundary config body = some
      (w.backFrom false config.nodeUrl
        (w.enter id (orElse config.functionId "<no-sla-id>") (w.backFrom true config.nodeUrl outcome))) := by
  obtain ⟨host, ha⟩ := hu _ he.mem
  let r : Request β := {
    method := "POST"
    url    := config.nodeUrl
    header := ((Header.empty.set (.other "Content-Type") (content.contentType boundary)).set .tags config.tags).set
      .slaId config.functionId
    body   := body
  }
  have hr : r.header .requestId = [] := rfl
  let first : Request β := { r with header := r.header.add .requestId id }
  have hi : first.header.get .requestId = id := Header.get_add_of_empty hr
  obtain ⟨outcome, ho, hs⟩ := World.proxy_serves he hu (r := first) rfl ha hi hne hn
  refine ⟨outcome, hs, ?_⟩
  have hf : w.proxy id (n + 1) config.firstNodeIp r =
      some (w.enter id (orElse config.functionId "<no-sla-id>") (w.backFrom true config.nodeUrl outcome)) := by
    rw [World.proxy_first hr ha, World.send_eq ho, hi, decide_eq_true hne, Option.map_some]
    rfl
  have hr' : decide (r.header.get .requestId ≠ "") = false := by
    rw [Header.get, hr]
    rfl
  rw [ping, hc, Option.bind_some, ReqContent.newRequest, ha.hostname, Option.map_some, ← hr']
  exact World.send_eq hf

-- What the first proxy adds to what the one of the function says.
theorem pinged_of_serves {outcome : Outcome β} (he : Successor.Ends w.next config.nodeUrl urls)
    (hs : Serves w id urls body outcome) :
    Pinged w id config urls body (w.backFrom false config.nodeUrl
      (w.enter id (orElse config.functionId "<no-sla-id>") (w.backFrom true config.nodeUrl outcome))) where
  follows  := by
    apply World.follows_backFrom
    rw [World.calls_enter]
    exact World.follows_backFrom hs.follows
  answered := by
    by_cases hl : Reaches w config
    case pos => simp [World.backFrom_of_carries hl, hl, World.response_enter]
    case neg => simp [World.response_backFrom_of_not_carries hl, hl]
  success  := by
    intro body'
    obtain ⟨rest, rfl⟩ := he.exists_cons
    rw [World.success_backFrom, World.success_enter, World.success_backFrom, hs.success, List.tail_cons,
      List.forall_mem_cons]
    constructor
    case mp =>
      rintro ⟨⟨⟨hb, hl⟩, hl'⟩, hr⟩
      exact ⟨hb, ⟨hl', hl⟩, hr⟩
    case mpr =>
      rintro ⟨hb, ⟨hl', hl⟩, hr⟩
      exact ⟨⟨⟨hb, hl⟩, hl'⟩, hr⟩
  points   := by
    intro h
    have hl := World.carries_of_success h
    rw [World.backFrom_of_carries hl, World.success_enter] at h
    have hl' := World.carries_of_success h
    rw [World.backFrom_of_carries hl'] at h
    rw [World.backFrom_of_carries hl, World.backFrom_of_carries hl', World.calls_enter,
      World.points_enter h hs.plain]
    obtain ⟨hm, hp⟩ := hs.points h
    exact ⟨hm, by rw [hp]; rfl⟩

-- A ping goes along the functions from the one it is sent to.
theorem ping_pinged (he : Successor.Ends w.next config.nodeUrl urls) (hu : ∀ url ∈ urls, ∃ host, Url.At url host)
    (hc : config.content = some content) (hne : id ≠ "") (hn : urls.length < n) :
    ∃ outcome, ping w id n boundary config body = some outcome ∧ Pinged w id config urls body outcome := by
  obtain ⟨n, rfl⟩ := Nat.exists_eq_succ_of_ne_zero (Nat.ne_zero_of_lt hn)
  obtain ⟨outcome, hs, hp⟩ := ping_serves he hu hc hne (Nat.le_of_lt_succ hn)
  exact ⟨_, hp, pinged_of_serves he hs⟩

end IotEmulation
