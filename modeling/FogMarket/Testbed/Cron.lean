import FogMarket.Library.Json

namespace IotEmulation

inductive ReqContent
  | ping
  | audio
  | image
  deriving DecidableEq

structure CronConfig where
  functionId    : String := ""
  iotUrl        : String := ""
  nodeUrl       : String := ""
  tags          : String := ""
  initialWaitMs : ℚ := 0
  intervalMs    : ℚ := 0
  durationMs    : ℚ := 0
  firstNodeIp   : String := ""
  content       : Option ReqContent := none
  deriving DecidableEq

namespace ReqContent

def name : ReqContent → String
  | ping  => "ping"
  | audio => "audio"
  | image => "image"

-- A text which names no content leaves it as it is.
def select (inner : Option ReqContent) : String → Option ReqContent
  | "ping"  => some ping
  | "audio" => some audio
  | "image" => some image
  | _       => inner

def unmarshalJson (inner : Option ReqContent) : Json → Option (Option ReqContent)
  | .null     => some (select inner "")
  | .string s => some (select inner s)
  | .number _ => none

end ReqContent

namespace CronConfig

def fields : List (Json.Field CronConfig) := [
  .string "functionId" fun s config => { config with functionId := s },
  .string "iotUrl" fun s config => { config with iotUrl := s },
  .string "nodeUrl" fun s config => { config with nodeUrl := s },
  .string "tags" fun s config => { config with tags := s },
  .float64 "intialWaitMs" fun n config => { config with initialWaitMs := n },
  .float64 "intervalMs" fun n config => { config with intervalMs := n },
  .float64 "durationMs" fun n config => { config with durationMs := n },
  .string "firstNodeIp" fun s config => { config with firstNodeIp := s },
  {
    tag   := "content"
    store := fun v config => (ReqContent.unmarshalJson config.content v).map ({ config with content := · })
  }
]

-- `validate:"min=1"`
def Valid (config : CronConfig) : Prop :=
  1 ≤ config.intervalMs ∧ 1 ≤ config.durationMs

instance : DecidablePred Valid :=
  fun _ => inferInstanceAs (Decidable (_ ∧ _))

variable {body : Json.Object} {config config' : CronConfig}

theorem tag_or_keeps : ∀ f ∈ fields, f.tag = "intialWaitMs" ∨ f.Keeps initialWaitMs := by
  have hc : (Json.Field.mk "content" fun v (config : CronConfig) =>
      (ReqContent.unmarshalJson config.content v).map ({ config with content := · })).Keeps initialWaitMs := by
    intro v s s' hs
    have ⟨inner, _, hs⟩ := Option.map_eq_some_iff.mp hs
    rw [← hs]
  simp only [fields, List.forall_mem_cons]
  simp [hc, Json.Field.string_keeps, Json.Field.float64_keeps]
  exact Or.inl rfl

-- The wait has the one key which lacks a letter.
theorem initialWaitMs_of_forall (hb : ∀ m ∈ body, Json.fold "intialWaitMs" ≠ Json.fold m.1)
    (h : Json.unmarshal fields body config = some config') : config'.initialWaitMs = config.initialWaitMs := by
  apply Json.get_unmarshal_of_keeps _ h
  intro m hm f hf
  have ⟨hf, ht⟩ := Json.taker_eq_some hf
  apply (tag_or_keeps f hf).resolve_left
  intro he
  exact hb m hm (he ▸ ht)

end CronConfig

inductive Rejection
  | wrongMethod
  | cannotUnmarshal
  | validationFailed
  deriving DecidableEq

-- The configuration for which the pings are sent.
def handleCron (method : String) (body : Json.Object) : Except Rejection CronConfig :=
  if method ≠ "PUT" then
    .error .wrongMethod
  else
    match Json.unmarshal CronConfig.fields body {} with
    | none        => .error .cannotUnmarshal
    | some config => if config.Valid then .ok config else .error .validationFailed

end IotEmulation

namespace Expe

open IotEmulation

structure Function where
  duration          : Int64
  functionName      : String
  firstNodeIP       : Option String
  requestInterval   : Int64
  reqContent        : String
  coldStartOverhead : Int64
  stopOverhead      : Int64

structure FunctionProvisioned where
  faasIP     : String
  faasPort   : Int64
  functionID : String

-- What is read from the environment.
structure Env where
  iotIP               : String
  iotLocalPort        : Int64
  overrideFirstNodeIP : String

def iotUrl (env : Env) : String :=
  s!"http://{env.iotIP}:{env.iotLocalPort.toInt}/api/print"

def nodeUrl (provisioned : FunctionProvisioned) : String :=
  s!"http://{provisioned.faasIP}:{provisioned.faasPort.toInt}/function/fogfn-{provisioned.functionID}"

def faasIP (env : Env) (function : Function) : Option String :=
  if env.overrideFirstNodeIP ≠ "" then some env.overrideFirstNodeIP else function.firstNodeIP

-- The body of the request.
def putRequestIotEmulation (env : Env) (provisioned : FunctionProvisioned) (function : Function) : Json.Object :=
  Json.marshal [
    ("iotUrl", .string (iotUrl env)),
    ("nodeUrl", .string (nodeUrl provisioned)),
    ("functionId", .string provisioned.functionID),
    ("tags", .string function.functionName),
    ("initialWaitMs", .number function.coldStartOverhead.toInt),
    ("durationMs", .number (function.duration - function.stopOverhead).toInt),
    ("intervalMs", .number function.requestInterval.toInt),
    ("firstNodeIp", (faasIP env function).elim .null .string),
    ("content", .string function.reqContent)
  ]

-- The configuration says what has been meant for it.
structure Agrees (env : Env) (provisioned : FunctionProvisioned) (function : Function) (config : CronConfig) :
    Prop where
  functionId    : config.functionId = provisioned.functionID
  iotUrl        : config.iotUrl = iotUrl env
  nodeUrl       : config.nodeUrl = nodeUrl provisioned
  tags          : config.tags = function.functionName
  initialWaitMs : config.initialWaitMs = function.coldStartOverhead.toInt
  intervalMs    : config.intervalMs = function.requestInterval.toInt
  durationMs    : config.durationMs = (function.duration - function.stopOverhead).toInt
  firstNodeIp   : config.firstNodeIp = (faasIP env function).getD ""
  content       : ∀ content : ReqContent, function.reqContent = content.name → config.content = some content

variable {env : Env} {provisioned : FunctionProvisioned} {function : Function} {config : CronConfig}

theorem putRequestIotEmulation_eq : putRequestIotEmulation env provisioned function = [
    ("content", .string function.reqContent),
    ("durationMs", .number (function.duration - function.stopOverhead).toInt),
    ("firstNodeIp", (faasIP env function).elim .null .string),
    ("functionId", .string provisioned.functionID),
    ("initialWaitMs", .number function.coldStartOverhead.toInt),
    ("intervalMs", .number function.requestInterval.toInt),
    ("iotUrl", .string (iotUrl env)),
    ("nodeUrl", .string (nodeUrl provisioned)),
    ("tags", .string function.functionName)
  ] := by
  simp [putRequestIotEmulation, Json.marshal]

-- What the emulator makes of the message.
def received (env : Env) (provisioned : FunctionProvisioned) (function : Function) : CronConfig where
  functionId  := provisioned.functionID
  iotUrl      := iotUrl env
  nodeUrl     := nodeUrl provisioned
  tags        := function.functionName
  intervalMs  := function.requestInterval.toInt
  durationMs  := (function.duration - function.stopOverhead).toInt
  firstNodeIp := (faasIP env function).getD ""
  content     := ReqContent.select none function.reqContent

theorem unmarshal_putRequestIotEmulation :
    Json.unmarshal CronConfig.fields (putRequestIotEmulation env provisioned function) {} =
      some (received env provisioned function) := by
  rw [putRequestIotEmulation_eq, received]
  cases faasIP env function
  case none => rfl
  case some ip => rfl

theorem valid_received :
    (received env provisioned function).Valid ↔
      1 ≤ function.requestInterval.toInt ∧ 1 ≤ (function.duration - function.stopOverhead).toInt := by
  simp only [CronConfig.Valid, received]
  norm_cast

theorem handleCron_eq_ok {body : Json.Object} (h : handleCron "PUT" body = .ok config) :
    Json.unmarshal CronConfig.fields body {} = some config ∧ config.Valid := by
  simp only [handleCron, ne_eq, not_true_eq_false, ite_false] at h
  split at h
  case h_1 => contradiction
  case h_2 config' hu =>
    split at h
    case isTrue hv =>
      cases h
      exact ⟨hu, hv⟩
    case isFalse => contradiction

-- The emulator accepts the function if it lives for some time and is asked for at an interval.
theorem handleCron_eq_ok_iff :
    handleCron "PUT" (putRequestIotEmulation env provisioned function) = .ok config ↔
      config = received env provisioned function ∧
        1 ≤ function.requestInterval.toInt ∧ 1 ≤ (function.duration - function.stopOverhead).toInt := by
  have hr : (received env provisioned function).Valid ↔ _ := valid_received
  rw [← hr]
  constructor
  case mp =>
    intro h
    have ⟨hu, hv⟩ := handleCron_eq_ok h
    rw [unmarshal_putRequestIotEmulation] at hu
    cases hu
    exact ⟨rfl, hv⟩
  case mpr =>
    intro ⟨hc, hv⟩
    rw [handleCron, if_neg (by decide), unmarshal_putRequestIotEmulation, hc]
    exact if_pos hv

theorem initialWaitMs_eq_zero (h : handleCron "PUT" (putRequestIotEmulation env provisioned function) = .ok config) :
    config.initialWaitMs = 0 := by
  apply CronConfig.initialWaitMs_of_forall _ (handleCron_eq_ok h).left
  simp [putRequestIotEmulation, Json.fold]

theorem select_name {inner : Option ReqContent} {content : ReqContent} :
    ReqContent.select inner content.name = some content := by
  cases content
  all_goals rfl

-- The configuration is the one which is meant if there is nothing to wait for.
theorem agrees_iff (h : handleCron "PUT" (putRequestIotEmulation env provisioned function) = .ok config) :
    Agrees env provisioned function config ↔ function.coldStartOverhead = 0 := by
  constructor
  case mp =>
    intro ha
    have hw := ha.initialWaitMs
    rw [initialWaitMs_eq_zero h] at hw
    apply Int64.toInt_inj.mp
    exact_mod_cast hw.symm
  case mpr =>
    intro hc
    have ⟨he, _⟩ := handleCron_eq_ok_iff.mp h
    subst he
    constructor
    case content =>
      intro content hn
      rw [received, hn]
      exact select_name
    case initialWaitMs => simp [received, hc]
    all_goals rfl

def waiting (coldStartOverhead : Int64) : Function where
  duration          := 60000
  functionName      := "echo"
  firstNodeIP       := none
  requestInterval   := 500
  reqContent        := "ping"
  coldStartOverhead := coldStartOverhead
  stopOverhead      := 1000

def testbed : Env where
  iotIP               := "10.0.0.1"
  iotLocalPort        := 30001
  overrideFirstNodeIP := "10.0.0.2"

def echo : FunctionProvisioned where
  faasIP     := "10.0.0.3"
  faasPort   := 31112
  functionID := "1"

theorem handleCron_waiting {overhead : Int64} :
    handleCron "PUT" (putRequestIotEmulation testbed echo (waiting overhead)) =
      .ok (received testbed echo (waiting overhead)) :=
  handleCron_eq_ok_iff.mpr ⟨rfl, by simp [waiting], by simp [waiting]⟩

theorem agrees_iff_of_echo :
    Agrees testbed echo (waiting 0) (received testbed echo (waiting 0)) ↔ (waiting 0).coldStartOverhead = 0 :=
  agrees_iff handleCron_waiting

-- A second for the cold start is not waited for.
theorem not_agrees_of_waiting :
    ∃ config, handleCron "PUT" (putRequestIotEmulation testbed echo (waiting 1000)) = .ok config ∧
      config.initialWaitMs = 0 ∧ ¬Agrees testbed echo (waiting 1000) config := by
  refine ⟨_, handleCron_waiting, rfl, ?_⟩
  intro h
  have hw := h.initialWaitMs
  simp [received, waiting] at hw

end Expe
