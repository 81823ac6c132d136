import FogMarket.Library.Decimal
import FogMarket.Library.Successor
import Mathlib.Logic.Function.Basic

-- The URLs `http://…`, without user information, brackets and escapes.
namespace Url

def authority (url : String) : Option (List Char) :=
  if "http://".toList.isPrefixOf url.toList then
    some ((url.toList.drop 7).takeWhile fun c => !(['/', '?', '#'].contains c))
  else
    none

-- `url.Parse` and `Hostname` in Go. The port is behind the last colon.
def hostname (url : String) : Option String := do
  let authority ← authority url
  match authority.reverse.dropWhile (· ≠ ':') with
  | []        => some (String.ofList authority)
  | _ :: host =>
    if (authority.reverse.takeWhile (· ≠ ':')).all Char.isDigit then some (String.ofList host.reverse) else none

-- `urlparse(url).hostname` in Python. The port is behind the first colon.
def urlparseHostname (url : String) : Option String :=
  (authority url).map fun authority => String.ofList ((authority.takeWhile (· ≠ ':')).map Char.toLower)

def Dotted (host : String) : Prop :=
  ∀ c ∈ host.toList, c.isDigit = true ∨ c = '.'

-- The host behind an address, and the port.
structure At (url host : String) : Prop where
  dotted : Dotted host
  eq     : ∃ (port : ℕ) (path : String), url = "http://" ++ host ++ ":" ++ toString port ++ "/" ++ path

variable {url host : String}

theorem Dotted.ne {c d : Char} (h : Dotted host) (hc : c ∈ host.toList) (hd : d.isDigit = false) (hp : d ≠ '.') :
    c ≠ d := by
  cases h c hc
  case inl h => exact Decimal.ne_of_isDigit h hd
  case inr h => exact h ▸ hp.symm

theorem dotted_of_all (h : (host.toList.all fun c => c.isDigit || c == '.') = true) : Dotted host := by
  intro c hc
  simpa using List.all_eq_true.mp h c hc

theorem toLower_of_isDigit {c : Char} (h : c.isDigit = true) : c.toLower = c := by
  simp only [Char.isDigit, Bool.and_eq_true, decide_eq_true_eq, ge_iff_le, UInt32.le_iff_toNat_le] at h
  apply dif_neg
  rw [ge_iff_le, UInt32.le_iff_toNat_le]
  intro hc
  have := Nat.le_trans hc.left h.right
  contradiction

theorem Dotted.toLower {c : Char} (h : Dotted host) (hc : c ∈ host.toList) : c.toLower = c := by
  cases h c hc
  case inl h => exact toLower_of_isDigit h
  case inr h => rw [h]; rfl

theorem toList_eq {port : ℕ} {path : String} : ("http://" ++ host ++ ":" ++ toString port ++ "/" ++ path).toList =
    "http://".toList ++ ((host.toList ++ ':' :: Nat.toDigits 10 port) ++ '/' :: path.toList) := by
  simp [String.toList_append, Nat.toList_repr]

theorem authority_eq (h : Dotted host) {port : ℕ} {path : String} :
    authority ("http://" ++ host ++ ":" ++ toString port ++ "/" ++ path) =
      some (host.toList ++ ':' :: Nat.toDigits 10 port) := by
  have hp : ∀ c ∈ host.toList ++ ':' :: Nat.toDigits 10 port, (!(['/', '?', '#'].contains c)) = true := by
    intro c hc
    have hn : c.isDigit = true ∨ c = '.' ∨ c = ':' := by
      cases List.mem_append.mp hc
      case inl hc => exact (h c hc).imp_right Or.inl
      case inr hc =>
        cases hc
        case head => exact Or.inr (Or.inr rfl)
        case tail hc => exact Or.inl (Decimal.isDigit_toDigits hc)
    obtain hn | rfl | rfl := hn
    case inl =>
      have h₁ := Decimal.ne_of_isDigit hn (by decide : '/'.isDigit = false)
      have h₂ := Decimal.ne_of_isDigit hn (by decide : '?'.isDigit = false)
      have h₃ := Decimal.ne_of_isDigit hn (by decide : '#'.isDigit = false)
      simp [h₁, h₂, h₃]
    all_goals decide
  rw [authority, toList_eq, if_pos (by simp), List.drop_left' (by decide), List.takeWhile_append_of_pos hp,
    List.takeWhile_cons_of_neg (by decide), List.append_nil]

theorem At.authority (h : At url host) :
    ∃ port : ℕ, authority url = some (host.toList ++ ':' :: Nat.toDigits 10 port) := by
  obtain ⟨port, path, rfl⟩ := h.eq
  exact ⟨port, authority_eq h.dotted⟩

theorem path_inj {host' path path' : String} {port port' : ℕ} (h : Dotted host) (h' : Dotted host')
    (he : "http://" ++ host ++ ":" ++ toString port ++ "/" ++ path =
      "http://" ++ host' ++ ":" ++ toString port' ++ "/" ++ path') : path = path' := by
  have ha := (authority_eq h).symm.trans ((congrArg authority he).trans (authority_eq h'))
  have hl := congrArg String.toList he
  rw [toList_eq, toList_eq, Option.some.inj ha] at hl
  have hc := List.append_cancel_left (List.append_cancel_left hl)
  exact String.toList_inj.mp (List.cons.inj hc).right

theorem At.hostname (h : At url host) : hostname url = some host := by
  obtain ⟨port, hp⟩ := h.authority
  have hd : ∀ c ∈ (Nat.toDigits 10 port).reverse, (decide (c ≠ ':')) = true := by
    intro c hc
    have hn := Decimal.isDigit_toDigits (List.mem_reverse.mp hc)
    simpa using Decimal.ne_of_isDigit hn (by decide : ':'.isDigit = false)
  have hr : (host.toList ++ ':' :: Nat.toDigits 10 port).reverse =
      (Nat.toDigits 10 port).reverse ++ ':' :: host.toList.reverse := by
    simp
  have ha : ((Nat.toDigits 10 port).reverse.all Char.isDigit) = true := by
    rw [List.all_reverse]
    exact List.all_eq_true.mpr fun c hc => Decimal.isDigit_toDigits hc
  simp only [Url.hostname, hp, Option.bind_eq_bind, Option.bind_some, hr, List.dropWhile_append_of_pos hd,
    List.takeWhile_append_of_pos hd]
  simp [ha]

theorem At.urlparseHostname (h : At url host) : urlparseHostname url = some host := by
  obtain ⟨port, hp⟩ := h.authority
  have hd : ∀ c ∈ host.toList, (decide (c ≠ ':')) = true := by
    intro c hc
    simpa using h.dotted.ne hc (by decide) (by decide)
  have hl : host.toList.map Char.toLower = host.toList.map id := List.map_congr_left fun c hc => h.dotted.toLower hc
  rw [Url.urlparseHostname, hp, Option.map_some, List.takeWhile_append_of_pos hd,
    List.takeWhile_cons_of_neg (by decide), List.append_nil, hl, List.map_id, String.ofList_toList]

end Url

namespace Proxy

-- The names of headers, whose case does not matter.
inductive Key
  | requestId
  | slaId
  | tags
  | redirect
  | redirectProxy
  | other (name : String)
  deriving DecidableEq

abbrev Header :=
  Key → List String

namespace Header

def empty : Header :=
  fun _ => []

def get (header : Header) (key : Key) : String :=
  (header key).headD ""

def add (header : Header) (key : Key) (value : String) : Header :=
  Function.update header key (header key ++ [value])

def set (header : Header) (key : Key) (value : String) : Header :=
  Function.update header key [value]

def del (header : Header) (key : Key) : Header :=
  Function.update header key []

-- What is missing in a header is added from another one.
def complete (header other : Header) : Header :=
  fun key => if header.get key = "" then header key ++ other key else header key

end Header

structure Request (β : Type*) where
  method : String
  url    : String
  header : Header
  body   : β

structure Response (β : Type*) where
  status : ℕ
  header : Header
  body   : β

-- What a proxy writes down about a request.
structure Point where
  slaId         : String
  reqId         : String
  tags          : String
  firstReqId    : Bool
  serviceStatus : ℕ
  status        : ℕ
  deriving DecidableEq

-- A request to a function, and the host of the proxy which sends it.
structure Call (β : Type*) where
  host    : String
  request : Request β

-- What becomes of a request: the response, unless the connection breaks down, and what has been called and written
-- down.
structure Outcome (β : Type*) where
  response : Option (Response β)
  calls    : List (Call β)
  points   : List Point

namespace Outcome

variable {β : Type*}

def lost : Outcome β where
  response := none
  calls    := []
  points   := []

def success (outcome : Outcome β) : Option β :=
  outcome.response.bind fun resp => if resp.status = 200 then some resp.body else none

end Outcome

def orElse (value default : String) : String :=
  if value = "" then default else value

def proxyUrl (hostname : String) : String :=
  "http://" ++ hostname ++ ":3128/"

section Handler

variable {β : Type*} (text : String → β)

-- `http.Error`
def internalServerError (error : String) : Response β where
  status := 500
  header := (Header.empty.set (.other "Content-Type") "text/plain; charset=utf-8").set
    (.other "X-Content-Type-Options") "nosniff"
  body   := text error

-- The proxy makes up an id for requests without one, and sends them to the proxy of the node of their function.
-- There they go to the function, and its response goes on to the next function. What is added to a header after the
-- status has been written is not sent, and what has been read for the log of a body neither. Without a response from
-- the next function, the handler panics, which closes the connection.
def handleRequest (newId : String) (roundTrip : Request β → Outcome β)
    (transmitRequest : Request β → String → String → Option (Outcome β)) (r : Request β) : Option (Outcome β) := do
  let preSetSlaId := orElse (r.header.get .slaId) "<no-sla-id>"
  let firstRequestId : Bool := r.header.get .requestId = ""
  let requestId := if firstRequestId then newId else r.header.get .requestId
  let r := if firstRequestId then { r with header := r.header.add .requestId requestId } else r
  let sent ←
    if firstRequestId then
      transmitRequest r r.url (proxyUrl ((Url.hostname r.url).getD ""))
    else
      some (roundTrip r)
  match sent.response with
  | none => some { sent with response := some (internalServerError text "Error sending proxy request") }
  | some resp =>
    let point (status : ℕ) : Point := {
      slaId         := orElse (resp.header.get .slaId) preSetSlaId
      reqId         := requestId
      tags          := orElse (resp.header.get .tags) "<no-tags>"
      firstReqId    := firstRequestId
      serviceStatus := resp.status
      status        := status
    }
    let header := (resp.header.del .tags).del .slaId
    let transmitUrl := header.get .redirect
    if firstRequestId = false ∧ resp.status = 200 ∧ transmitUrl ≠ "" then
      match Url.hostname transmitUrl with
      | none   => some { sent with response := some ⟨200, .empty, text ""⟩ }
      | some _ =>
        let outReq := {
          method := r.method, url := transmitUrl, header := header.complete r.header, body := resp.body
        }
        let next ← transmitRequest outReq transmitUrl (header.get .redirectProxy)
        let calls := sent.calls ++ next.calls
        let points := sent.points ++ next.points
        match next.response with
        | none      => some ⟨none, calls, points⟩
        | some resp => some ⟨some { resp with header := .empty }, calls, points ++ [point resp.status]⟩
    else
      let body := if firstRequestId = false ∧ resp.status ≠ 200 then text "" else resp.body
      some ⟨some { resp with header := .empty, body }, sent.calls, sent.points ++ [point resp.status]⟩

end Handler

-- What the functions are made of: the one in Rust never tells of a next function.
inductive Image
  | echo
  | python
  deriving DecidableEq

-- A deployed function, with its environment.
structure Instance where
  image   : Image
  name    : Option String
  id      : Option String
  nextUrl : Option String

namespace Instance

-- The watchdog of the functions.
def tagsHeader (f : Instance) : String :=
  match f.name with
  | none      => "<no-tags-env-var>"
  | some name => orElse name "<tags-var-is-empty>"

def slaIdHeader (f : Instance) : String :=
  match f.id with
  | none    => "<no-sla-id-env-var>"
  | some id => orElse id "<sla-id-var-is-empty>"

def appendGiraff (f : Instance) (header : Header) : Header :=
  (header.set .tags f.tagsHeader).set .slaId f.slaIdHeader

-- Where responses are sent on to.
def redirect (f : Instance) : Option String :=
  match f.image with
  | .echo   => none
  | .python => f.nextUrl.filter (· ≠ "")

def addHeaders (f : Instance) (header : Header) : Header :=
  match f.redirect with
  | none     => header
  | some url => (header.set .redirect url).set .redirectProxy (proxyUrl ((Url.urlparseHostname url).getD "None"))

-- The header of a response, after a proxy has read the tags.
def onward (f : Instance) : Header :=
  ((f.addHeaders (f.appendGiraff .empty)).del .tags).del .slaId

def reconfigure (f : Instance) (nextFunctionUrl : String) : Instance :=
  { f with nextUrl := some nextFunctionUrl }

end Instance

-- What comes back for a call of a function. The gateway in front of it answers itself with errors only.
inductive Answer (β : Type*)
  | failed
  | gateway (status : ℕ) (body : β) (error : status ≠ 200)
  | function (status : ℕ) (body : β)

-- What the proxies meet: the functions behind their URLs, what they answer, and whether the requests to the proxies
-- and the responses of these arrive, both with and without an id.
structure World (β : Type*) where
  functions : String → Instance
  answer    : String → β → Answer β
  delivers  : Bool → String → Bool
  returns   : Bool → String → Bool
  text      : String → β

namespace World

variable {β : Type*} (w : World β)

def roundTrip (host : String) (r : Request β) : Outcome β where
  response :=
    match w.answer r.url r.body with
    | .failed                => none
    | .gateway status body _ => some ⟨status, .empty, body⟩
    | .function status body  =>
      let f := w.functions r.url
      some ⟨status, f.addHeaders (f.appendGiraff .empty), body⟩
  calls    := [⟨host, r⟩]
  points   := []

-- A request to a proxy and back.
def send (proxy : Request β → Option (Outcome β)) (r : Request β) : Option (Outcome β) :=
  let identified : Bool := r.header.get .requestId ≠ ""
  if w.delivers identified r.url then
    (proxy r).map fun outcome => if w.returns identified r.url then outcome else { outcome with response := none }
  else
    some .lost

def transmitRequest (host : String) (proxy : String → Request β → Option (Outcome β)) (r : Request β)
    (transmitUrl transmitProxyUrl : String) : Option (Outcome β) :=
  match Url.hostname transmitUrl, Url.hostname transmitProxyUrl with
  | none, _           => some .lost
  | some _, none      => some (w.roundTrip host { r with url := transmitUrl })
  | some _, some next => w.send (proxy next) { r with url := transmitUrl }

-- The proxies, with at most this many of them one after another.
def proxy (newId : String) : ℕ → String → Request β → Option (Outcome β)
  | 0, _, _        => none
  | n + 1, host, r => handleRequest w.text newId (w.roundTrip host) (w.transmitRequest host (proxy newId n)) r

def next (url : String) : Option String :=
  (w.functions url).redirect

def works (url : String) (body : β) : Option β :=
  match w.answer url body with
  | .function 200 body' => some body'
  | _                   => none

-- What functions make of a body one after another.
def compose (urls : List String) (body : β) : Option β :=
  urls.foldlM (fun body url => w.works url body) body

-- Requests get to the next proxy, and their responses back.
def Carries (identified : Bool) (url : String) : Prop :=
  w.delivers identified url = true ∧ w.returns identified url = true

-- How an outcome gets back from the next proxy.
def backFrom (identified : Bool) (url : String) (outcome : Outcome β) : Outcome β :=
  if w.delivers identified url then
    if w.returns identified url then outcome else { outcome with response := none }
  else
    .lost

-- What is written down about a call of a function.
def point (id url : String) (serviceStatus status : ℕ) : Point where
  slaId         := (w.functions url).slaIdHeader
  reqId         := id
  tags          := (w.functions url).tagsHeader
  firstReqId    := false
  serviceStatus := serviceStatus
  status        := status

-- The request to the next function.
def outReq (r : Request β) (body : β) (url : String) : Request β where
  method := r.method
  url    := url
  header := (w.functions r.url).onward.complete r.header
  body   := body

-- What a proxy makes of what the next one says.
def passBack (host : String) (r : Request β) (next : Outcome β) : Outcome β :=
  match next.response with
  | none      => ⟨none, ⟨host, r⟩ :: next.calls, next.points⟩
  | some resp => ⟨some { resp with header := .empty }, ⟨host, r⟩ :: next.calls,
      next.points ++ [w.point (r.header.get .requestId) r.url 200 resp.status]⟩

end World

-- The functions get a request in their order, each one from the proxy on its node, with the id of the request and
-- with what the ones before have answered.
structure Follows {β : Type*} (w : World β) (id : String) (urls : List String) (body : β) (calls : List (Call β)) :
    Prop where
  order      : calls.map (·.request.url) <+: urls
  near       : ∀ call ∈ calls, Url.At call.request.url call.host
  identified : ∀ call ∈ calls, call.request.header.get .requestId = id
  bodies     : ∀ i call, calls[i]? = some call → w.compose (urls.take i) body = some call.request.body

-- The response says success if all the functions work, and no request to them is lost on the way. Then each of them
-- has been called and written down.
structure Serves {β : Type*} (w : World β) (id : String) (urls : List String) (body : β) (outcome : Outcome β) :
    Prop where
  follows : Follows w id urls body outcome.calls
  plain   : ∀ resp ∈ outcome.response, resp.header.get .slaId = "" ∧ resp.header.get .tags = ""
  success : ∀ body', outcome.success = some body' ↔
    w.compose urls body = some body' ∧ ∀ url ∈ urls.tail, w.Carries true url
  points  : outcome.success ≠ none →
    outcome.calls.map (·.request.url) = urls ∧ outcome.points = urls.reverse.map fun url => w.point id url 200 200

variable {β : Type*} {w : World β} {id newId host hostname u v : String} {urls : List String} {body body' : β}
variable {r : Request β} {calls : List (Call β)} {points : List Point} {outcome next : Outcome β} {f : Instance}
variable {header other : Header} {key key' : Key} {n : ℕ} {identified : Bool}

namespace Header

@[simp]
theorem get_set {value : String} : (header.set key value).get key = value := by
  simp [get, set]

theorem get_set_of_ne {value : String} (h : key' ≠ key) : (header.set key value).get key' = header.get key' := by
  simp [get, set, h]

theorem get_del_of_ne (h : key' ≠ key) : (header.del key).get key' = header.get key' := by
  simp [get, del, h]

theorem get_add_of_empty {value : String} (h : header key = []) : (header.add key value).get key = value := by
  simp [get, add, h]

theorem get_complete_of_nil (h : header key = []) : (header.complete other).get key = other.get key := by
  simp [get, complete, h]

end Header

theorem orElse_ne {value default : String} (h : default ≠ "") : orElse value default ≠ "" := by
  rw [orElse]
  split
  case isTrue => exact h
  case isFalse hv => exact hv

theorem orElse_eq {value default : String} (h : value ≠ "") : orElse value default = value :=
  if_neg h

namespace Instance

theorem tagsHeader_ne : f.tagsHeader ≠ "" := by
  rw [tagsHeader]
  split
  case h_1 => decide
  case h_2 => exact orElse_ne (by decide)

theorem slaIdHeader_ne : f.slaIdHeader ≠ "" := by
  rw [slaIdHeader]
  split
  case h_1 => decide
  case h_2 => exact orElse_ne (by decide)

theorem redirect_ne (h : f.redirect = some v) : v ≠ "" := by
  rw [redirect] at h
  split at h
  case h_1 => contradiction
  case h_2 =>
    have := (Option.filter_eq_some_iff.mp h).right
    simpa using this

theorem get_addHeaders_of_ne (h : key ≠ .redirect) (h' : key ≠ .redirectProxy) :
    (f.addHeaders header).get key = header.get key := by
  rw [addHeaders]
  split
  case h_1 => rfl
  case h_2 => rw [Header.get_set_of_ne h', Header.get_set_of_ne h]

theorem get_tags : (f.addHeaders (f.appendGiraff .empty)).get .tags = f.tagsHeader := by
  rw [get_addHeaders_of_ne (by decide) (by decide), appendGiraff, Header.get_set_of_ne (by decide), Header.get_set]

theorem get_slaId : (f.addHeaders (f.appendGiraff .empty)).get .slaId = f.slaIdHeader := by
  rw [get_addHeaders_of_ne (by decide) (by decide), appendGiraff, Header.get_set]

theorem get_redirect : f.onward.get .redirect = f.redirect.getD "" := by
  rw [onward, Header.get_del_of_ne (by decide), Header.get_del_of_ne (by decide), addHeaders]
  cases f.redirect
  case none => rfl
  case some => rw [Header.get_set_of_ne (by decide), Header.get_set, Option.getD_some]

theorem get_redirectProxy (h : f.redirect = some v) (hv : Url.At v hostname) :
    f.onward.get .redirectProxy = proxyUrl hostname := by
  rw [onward, Header.get_del_of_ne (by decide), Header.get_del_of_ne (by decide), addHeaders, h]
  simp only [Header.get_set, hv.urlparseHostname, Option.getD_some]

theorem onward_requestId : f.onward .requestId = [] := by
  rw [onward, addHeaders]
  cases f.redirect
  case none => rfl
  case some => rfl

end Instance

theorem at_proxyUrl (h : Url.Dotted hostname) : Url.At (proxyUrl hostname) hostname where
  dotted := h
  eq     := ⟨3128, "", by simp [proxyUrl, String.append_assoc]; rfl⟩

namespace World

theorem compose_cons : w.compose (u :: urls) body = (w.works u body).bind (w.compose urls) :=
  List.foldlM_cons

theorem compose_singleton : w.compose [u] body = w.works u body := by
  rw [compose_cons]
  exact Option.bind_fun_some (w.works u body)

theorem proxy_failed (hid : r.header.get .requestId ≠ "") (ha : w.answer r.url r.body = .failed) :
    w.proxy newId (n + 1) host r =
      some ⟨some (internalServerError w.text "Error sending proxy request"), [⟨host, r⟩], []⟩ := by
  simp [proxy, handleRequest, hid, roundTrip, ha]

theorem proxy_gateway {status : ℕ} {error : status ≠ 200} (hid : r.header.get .requestId ≠ "")
    (ha : w.answer r.url r.body = .gateway status body error) :
    ∃ points, w.proxy newId (n + 1) host r = some ⟨some ⟨status, .empty, w.text ""⟩, [⟨host, r⟩], points⟩ := by
  simp [proxy, handleRequest, hid, roundTrip, ha, error]

theorem proxy_refused {status : ℕ} (hid : r.header.get .requestId ≠ "")
    (ha : w.answer r.url r.body = .function status body) (hs : status ≠ 200) :
    ∃ points, w.proxy newId (n + 1) host r = some ⟨some ⟨status, .empty, w.text ""⟩, [⟨host, r⟩], points⟩ := by
  simp [proxy, handleRequest, hid, roundTrip, ha, hs]

theorem proxy_last (hid : r.header.get .requestId ≠ "") (ha : w.answer r.url r.body = .function 200 body)
    (hn : w.next r.url = none) :
    w.proxy newId (n + 1) host r =
      some ⟨some ⟨200, .empty, body⟩, [⟨host, r⟩], [w.point (r.header.get .requestId) r.url 200 200]⟩ := by
  have hr : (w.functions r.url).onward.get .redirect = "" := by
    rw [Instance.get_redirect, show (w.functions r.url).redirect = none from hn]
    rfl
  simp only [Instance.onward] at hr
  simp [proxy, handleRequest, hid, roundTrip, ha, hr, Instance.get_tags, Instance.get_slaId,
    orElse_eq Instance.tagsHeader_ne, orElse_eq Instance.slaIdHeader_ne, point]

theorem proxy_onward (hid : r.header.get .requestId ≠ "") (ha : w.answer r.url r.body = .function 200 body)
    (hn : w.next r.url = some v) (hv : Url.At v hostname) :
    w.proxy newId (n + 1) host r =
      (w.send (w.proxy newId n hostname) (w.outReq r body v)).map (w.passBack host r) := by
  have hr : (w.functions r.url).onward.get .redirect = v := by
    rw [Instance.get_redirect, show (w.functions r.url).redirect = some v from hn, Option.getD_some]
  have hp := Instance.get_redirectProxy hn hv
  have hne := Instance.redirect_ne hn
  simp only [Instance.onward] at hr hp
  simp [proxy, handleRequest, hid, roundTrip, ha, hr, hp, hne, hv.hostname, transmitRequest,
    (at_proxyUrl hv.dotted).hostname, Instance.get_tags, Instance.get_slaId,
    orElse_eq Instance.tagsHeader_ne, orElse_eq Instance.slaIdHeader_ne]
  rw [Option.map_eq_bind]
  refine congrArg (Option.bind _) (funext fun next => ?_)
  cases hs : next.response
  case none => simp [passBack, hs]
  case some resp => simp [passBack, hs, point]

end World

namespace Follows

theorem nil : Follows w id urls body [] where
  order      := List.nil_prefix
  near       := by simp
  identified := by simp
  bodies     := by simp

theorem single (ha : Url.At r.url host) (hid : r.header.get .requestId = id) :
    Follows w id (r.url :: urls) r.body [⟨host, r⟩] where
  order      := List.prefix_append [r.url] urls
  near       := List.forall_mem_singleton.mpr ha
  identified := List.forall_mem_singleton.mpr hid
  bodies     := by
    intro i call h
    cases i
    case zero =>
      cases h
      rfl
    case succ => contradiction

theorem cons (ha : Url.At r.url host) (hid : r.header.get .requestId = id) (hw : w.works r.url r.body = some body')
    (h : Follows w id urls body' calls) : Follows w id (r.url :: urls) r.body (⟨host, r⟩ :: calls) where
  order      := List.cons_prefix_cons.mpr ⟨rfl, h.order⟩
  near       := List.forall_mem_cons.mpr ⟨ha, h.near⟩
  identified := List.forall_mem_cons.mpr ⟨hid, h.identified⟩
  bodies     := by
    intro i call hi
    cases i
    case zero =>
      cases hi
      rfl
    case succ i =>
      rw [List.take_succ_cons, World.compose_cons, hw]
      exact h.bodies i call hi

end Follows

namespace World

theorem works_eq_some_iff : w.works u body = some body' ↔ w.answer u body = .function 200 body' := by
  rw [works]
  split
  case h_1 h => simp [h]
  case h_2 h =>
    simp only [reduceCtorEq, false_iff]
    exact h body'

-- Unless it works, the first function ends it.
theorem serves_of_works_eq_none (ha : Url.At r.url host) (hid : r.header.get .requestId = id) (hne : id ≠ "")
    (hw : w.works r.url r.body = none) :
    ∃ outcome, w.proxy newId (n + 1) host r = some outcome ∧ Serves w id (r.url :: urls) r.body outcome := by
  have key : ∀ outcome : Outcome β, outcome.calls = [⟨host, r⟩] → outcome.success = none →
      (∀ resp ∈ outcome.response, resp.header.get .slaId = "" ∧ resp.header.get .tags = "") →
      Serves w id (r.url :: urls) r.body outcome := by
    intro outcome hc hs hp
    constructor
    case follows => exact hc ▸ .single ha hid
    case plain => exact hp
    case success => simp [hs, compose_cons, hw]
    case points => exact fun h => absurd hs h
  rw [← hid] at hne
  cases hf : w.answer r.url r.body
  case failed =>
    refine ⟨_, proxy_failed hne hf, key _ rfl rfl ?_⟩
    rintro resp ⟨⟩
    exact ⟨rfl, rfl⟩
  case gateway status body error =>
    obtain ⟨points, hp⟩ := proxy_gateway hne hf
    refine ⟨_, hp, key _ rfl (by simp [Outcome.success, error]) ?_⟩
    rintro resp ⟨⟩
    exact ⟨rfl, rfl⟩
  case function status body =>
    have hs : status ≠ 200 := by
      rintro rfl
      rw [works_eq_some_iff.mpr hf] at hw
      contradiction
    obtain ⟨points, hp⟩ := proxy_refused hne hf hs
    refine ⟨_, hp, key _ rfl (by simp [Outcome.success, hs]) ?_⟩
    rintro resp ⟨⟩
    exact ⟨rfl, rfl⟩

theorem serves_of_next_eq_none (ha : Url.At r.url host) (hid : r.header.get .requestId = id) (hne : id ≠ "")
    (hw : w.works r.url r.body = some body) (hn : w.next r.url = none) :
    ∃ outcome, w.proxy newId (n + 1) host r = some outcome ∧ Serves w id [r.url] r.body outcome := by
  refine ⟨_, proxy_last (hid ▸ hne) (works_eq_some_iff.mp hw) hn, ?_⟩
  constructor
  case follows => exact .single ha hid
  case plain =>
    rintro resp ⟨⟩
    exact ⟨rfl, rfl⟩
  case success => simp [Outcome.success, compose_singleton, hw]
  case points => simp [hid]

theorem send_eq {proxy : Request β → Option (Outcome β)} (ho : proxy r = some outcome) :
    w.send proxy r = some (w.backFrom (decide (r.header.get .requestId ≠ "")) r.url outcome) := by
  rw [send, backFrom, ho]
  split
  case isTrue => rfl
  case isFalse => rfl

theorem send_outReq (hid : r.header.get .requestId = id) (hne : id ≠ "")
    (ho : w.proxy newId n hostname (w.outReq r body v) = some outcome) :
    w.send (w.proxy newId n hostname) (w.outReq r body v) = some (w.backFrom true v outcome) := by
  have hi : decide ((w.outReq r body v).header.get .requestId ≠ "") = true := by
    rw [outReq, Header.get_complete_of_nil Instance.onward_requestId, hid]
    exact decide_eq_true hne
  rw [send_eq ho, hi]
  rfl

theorem backFrom_of_carries (h : w.Carries identified v) : w.backFrom identified v outcome = outcome := by
  rw [backFrom, if_pos h.left, if_pos h.right]

theorem response_backFrom_of_not_carries (h : ¬w.Carries identified v) :
    (w.backFrom identified v outcome).response = none := by
  rw [backFrom]
  split
  case isTrue hd => rw [if_neg fun hr => h ⟨hd, hr⟩]
  case isFalse => rfl

theorem success_backFrom :
    (w.backFrom identified v outcome).success = some body ↔
      outcome.success = some body ∧ w.Carries identified v := by
  by_cases h : w.Carries identified v
  case pos => simp [backFrom_of_carries h, h]
  case neg => simp [Outcome.success, response_backFrom_of_not_carries h, h]

theorem carries_of_success (h : (w.backFrom identified v outcome).success ≠ none) : w.Carries identified v := by
  obtain ⟨body, hb⟩ := Option.ne_none_iff_exists'.mp h
  exact (success_backFrom.mp hb).right

theorem calls_backFrom :
    (w.backFrom identified v outcome).calls = [] ∨ (w.backFrom identified v outcome).calls = outcome.calls := by
  rw [backFrom]
  split
  case isTrue =>
    right
    split
    case isTrue => rfl
    case isFalse => rfl
  case isFalse => exact Or.inl rfl

theorem follows_backFrom (h : Follows w id urls body outcome.calls) :
    Follows w id urls body (w.backFrom identified v outcome).calls := by
  have hb : (w.backFrom identified v outcome).calls = [] ∨ (w.backFrom identified v outcome).calls = outcome.calls :=
    calls_backFrom
  cases hb
  case inl hb => exact hb ▸ .nil
  case inr hb => exact hb ▸ h

theorem calls_passBack : (w.passBack host r outcome).calls = ⟨host, r⟩ :: outcome.calls := by
  rw [passBack]
  split
  case h_1 => rfl
  case h_2 => rfl

theorem success_passBack : (w.passBack host r outcome).success = outcome.success := by
  rw [passBack, Outcome.success, Outcome.success]
  cases outcome.response
  case none => rfl
  case some => rfl

theorem plain_passBack : ∀ resp ∈ (w.passBack host r outcome).response, resp.header = .empty := by
  rw [passBack]
  split
  case h_1 => simp
  case h_2 =>
    rintro resp ⟨⟩
    rfl

theorem points_passBack (h : outcome.success ≠ none) :
    (w.passBack host r outcome).points = outcome.points ++ [w.point (r.header.get .requestId) r.url 200 200] := by
  rw [Outcome.success] at h
  rw [passBack]
  cases hr : outcome.response
  case none => simp [hr] at h
  case some resp =>
    have hs : resp.status = 200 := by
      by_contra hs
      simp [hr, hs] at h
    simp [hs]

-- What the next proxy says is passed back.
theorem serves_passBack (ha : Url.At r.url host) (hid : r.header.get .requestId = id)
    (hw : w.works r.url r.body = some body) (hs : Serves w id (v :: urls) body outcome) :
    Serves w id (r.url :: v :: urls) r.body (w.passBack host r (w.backFrom true v outcome)) := by
  have hc : w.compose (r.url :: v :: urls) r.body = w.compose (v :: urls) body := by
    rw [compose_cons, hw, Option.bind_some]
  constructor
  case follows =>
    have hb : (w.backFrom true v outcome).calls = [] ∨ (w.backFrom true v outcome).calls = outcome.calls :=
      calls_backFrom
    rw [calls_passBack]
    cases hb
    case inl h => exact h ▸ .single ha hid
    case inr h => exact h ▸ .cons ha hid hw hs.follows
  case plain =>
    intro resp hr
    rw [plain_passBack resp hr]
    exact ⟨rfl, rfl⟩
  case success =>
    intro body'
    rw [success_passBack, success_backFrom, hs.success, hc, List.tail_cons, List.tail_cons, List.forall_mem_cons,
      and_assoc, and_comm (a := w.Carries true v)]
  case points =>
    intro h
    rw [success_passBack] at h
    have hl := carries_of_success h
    rw [backFrom_of_carries hl] at h ⊢
    obtain ⟨hm, hp⟩ := hs.points h
    rw [calls_passBack, points_passBack h, hp, hid, List.map_cons, hm, @List.reverse_cons _ r.url, List.map_append]
    exact ⟨rfl, rfl⟩

theorem proxy_serves (he : Successor.Ends w.next u urls) (hu : ∀ url ∈ urls, ∃ host, Url.At url host)
    (hr : r.url = u) (ha : Url.At u host) (hid : r.header.get .requestId = id) (hne : id ≠ "") (hn : urls.length ≤ n) :
    ∃ outcome, w.proxy newId n host r = some outcome ∧ Serves w id urls r.body outcome := by
  induction he generalizing r host n
  all_goals
    obtain ⟨n, rfl⟩ := Nat.exists_eq_succ_of_ne_zero (Nat.pos_iff_ne_zero.mp (Nat.lt_of_lt_of_le (by simp) hn))
    subst hr
  case last hl =>
    cases hw : w.works r.url r.body
    case none => exact serves_of_works_eq_none ha hid hne hw
    case some body => exact serves_of_next_eq_none ha hid hne hw hl
  case cons v urls he hi hl =>
    cases hw : w.works r.url r.body
    case none => exact serves_of_works_eq_none ha hid hne hw
    case some body =>
      obtain ⟨hostname, hv⟩ := hu v (.tail _ he.mem)
      have hi' : (w.outReq r body v).header.get .requestId = id := by
        rw [outReq, Header.get_complete_of_nil Instance.onward_requestId, hid]
      obtain ⟨outcome, ho, hs⟩ := hi (fun url h => hu url (.tail _ h)) rfl hv hi' (Nat.succ_le_succ_iff.mp hn)
      obtain ⟨urls, rfl⟩ := he.exists_cons
      refine ⟨w.passBack host r (w.backFrom true v outcome), ?_, serves_passBack ha hid hw hs⟩
      rw [proxy_onward (hid ▸ hne) (works_eq_some_iff.mp hw) hl hv, send_outReq hid hne ho, Option.map_some]

end World

end Proxy
