import FogMarket.Library.Dict
import FogMarket.Library.Lists
import FogMarket.Testbed.Chain
import Mathlib.Algebra.Order.BigOperators.Group.List
import Mathlib.Data.Rat.Floor

namespace Expe

-- The zero values are those of functions which are missing.
structure FunctionPipeline where
  image                     : String := ""
  nextFunction              : Option String := none
  mem                       : Int64 := 0
  cpu                       : Int64 := 0
  latency                   : String := ""
  inputMaxSize              : String := ""
  expectedRequestIntervalMs : Int64 := 0

structure FunctionPipelineDescription where
  name      : String
  content   : String
  nbVarName : String
  first     : String
  pipeline  : Dict String FunctionPipeline

def FunctionPipelineDescription.function (fnDesc : FunctionPipelineDescription) (fnName : String) :
    FunctionPipeline :=
  (fnDesc.pipeline.get fnName).getD {}

def FunctionPipelineDescription.next (fnDesc : FunctionPipelineDescription) (fnName : String) : Option String :=
  (fnDesc.function fnName).nextFunction

-- What is drawn for a chain: the numbers of milliseconds, the second of its arrival, and a number for the latency of
-- each of its functions.
structure Draw where
  requestInterval : Int64
  duration        : Int64
  arrival         : Int64
  norm            : ℕ → ℚ

-- What is read from the environment to save functions.
structure SaveEnv where
  getenv                    : String → String
  targetNodeNames           : List String
  functionColdStartOverhead : Int64
  functionStopOverhead      : Int64
  functionMinDuration       : Int64

-- A chain which is asked for.
structure Job where
  targetNodeName : String
  fnDesc         : FunctionPipelineDescription
  index          : ℕ

variable (env : SaveEnv)

-- `strconv.Atoi` when its error is not looked at: the nearest integer, or zero.
def atoiValue (s : String) : Int64 :=
  Int64.ofInt (max (-2 ^ 63) (min ((readInt s).getD 0) (2 ^ 63 - 1)))

-- The conversion of a float which has been rounded up. The smallest integer stands for all which are out of range, as
-- it does on amd64.
def ceilInt (value : ℚ) : Int64 :=
  if -2 ^ 63 ≤ ⌈value⌉ ∧ ⌈value⌉ < 2 ^ 63 then Int64.ofInt ⌈value⌉ else Int64.minValue

-- For an interval of zero the scaling ratio is infinite, or no number at all.
def scaled (value expectedRequestIntervalMs requestInterval : Int64) : Int64 :=
  if requestInterval = 0 then
    if 0 < expectedRequestIntervalMs then Int64.minValue else value
  else
    let scalingRatio : ℚ := expectedRequestIntervalMs.toInt / requestInterval.toInt
    if 1 < scalingRatio then ceilInt (value.toInt * scalingRatio) else value

-- Floats are read exactly.
def chainFunction (draw : Draw) (job : Job) (ii : ℕ) (fnName : String) : Requested :=
  let fn := job.fnDesc.function fnName
  let duration :=
    max (draw.duration + env.functionColdStartOverhead + env.functionStopOverhead) env.functionMinDuration
  let latency : ℚ := (atoiValue (env.getenv fn.latency)).toInt
  let latency := ceilInt |draw.norm ii * latency + latency / 4|
  {
    targetNode        := job.targetNodeName
    mem               := scaled fn.mem fn.expectedRequestIntervalMs draw.requestInterval
    cpu               := scaled fn.cpu fn.expectedRequestIntervalMs draw.requestInterval
    latency           := latency
    duration          := duration
    dockerFnName      := fn.image
    functionName      := s!"{fnName}-i{job.index}-c{fn.cpu.toInt}-m{fn.mem.toInt}-l{latency.toInt}" ++
      s!"-a{draw.arrival.toInt}-r{draw.requestInterval.toInt}-d{duration.toInt}"
    firstNodeIP       := none
    requestInterval   := draw.requestInterval
    arrival           := draw.arrival
    reqContent        := job.fnDesc.content
    coldStartOverhead := env.functionColdStartOverhead
    stopOverhead      := env.functionStopOverhead
    inputMaxSize      := fn.inputMaxSize
  }

-- The loop over the functions of a chain, at most this often.
def fnChain (draw : Draw) (job : Job) : ℕ → ℕ → String → Option (List Requested)
  | 0, _, _           => none
  | n + 1, ii, fnName =>
    match job.fnDesc.next fnName with
    | none      => some [chainFunction env draw job ii fnName]
    | some next => (fnChain draw job n (ii + 1) next).map (chainFunction env draw job ii fnName :: ·)

def nbFunction (fnDesc : FunctionPipelineDescription) : Int64 :=
  atoiValue (env.getenv fnDesc.nbVarName)

-- There are slices for as many functions, and for one more in `openLoopPoissonProcess`. A negative length panics.
def Makes (functionDescriptions : List FunctionPipelineDescription) : Prop :=
  ∀ _ ∈ env.targetNodeNames, ∀ fnDesc ∈ functionDescriptions,
    0 ≤ nbFunction env fnDesc ∧ 0 ≤ nbFunction env fnDesc + 1

instance (functionDescriptions : List FunctionPipelineDescription) : Decidable (Makes env functionDescriptions) :=
  inferInstanceAs (Decidable (∀ _ ∈ _, ∀ _ ∈ _, _))

def jobs (functionDescriptions : List FunctionPipelineDescription) : List Job :=
  env.targetNodeNames.flatMap fun targetNodeName =>
    functionDescriptions.flatMap fun fnDesc =>
      (List.range (nbFunction env fnDesc).toInt.toNat).map fun index => ⟨targetNodeName, fnDesc, index⟩

-- The functions which are saved, with at most so many of them in a chain.
def saveFile (draws : ℕ → Draw) (functionDescriptions : List FunctionPipelineDescription) (n : ℕ) :
    Option (List (List Requested)) :=
  if Makes env functionDescriptions then
    (jobs env functionDescriptions).zipIdx.mapM fun (job, ii) => fnChain env (draws ii) job n 0 job.fnDesc.first
  else
    none

-- The functions of a chain follow each other as they are described. They are for the same node, live equally long,
-- and there are not more of them than there are descriptions, but for one which is missing.
structure Saved (job : Job) (chain : List Requested) : Prop where
  path   : ∃ names, Successor.Ends job.fnDesc.next job.fnDesc.first names ∧
    chain.map (·.dockerFnName) = names.map fun name => (job.fnDesc.function name).image
  length : chain.length ≤ job.fnDesc.pipeline.keys.length + 1
  node   : ∀ function ∈ chain, function.targetNode = job.targetNodeName
  alike  : ∀ function ∈ chain, ∀ function' ∈ chain, function.duration = function'.duration ∧
    function.requestInterval = function'.requestInterval ∧ function.arrival = function'.arrival ∧
    function.reqContent = function'.reqContent

def Circular (job : Job) : Prop :=
  ∃ fnName, Relation.ReflTransGen (Successor.Leads job.fnDesc.next) job.fnDesc.first fnName ∧
    Relation.TransGen (Successor.Leads job.fnDesc.next) fnName fnName

variable {env} {draw : Draw} {draws : ℕ → Draw} {job : Job} {n ii : ℕ} {fnName : String} {chain : List Requested}
variable {functionDescriptions : List FunctionPipelineDescription} {functions : List (List Requested)}

theorem fnChain_eq : fnChain env draw job n ii fnName = (Successor.walk job.fnDesc.next n fnName).map fun names =>
    (names.zipIdx ii).map fun (name, ii) => chainFunction env draw job ii name := by
  induction n generalizing ii fnName
  case zero => rfl
  case succ n hi =>
    rw [fnChain, Successor.walk]
    cases job.fnDesc.next fnName
    case none => rfl
    case some next =>
      simp only [hi, Option.map_map]
      rfl

theorem mem_keys_of_next {next : String} (h : job.fnDesc.next fnName = some next) :
    fnName ∈ job.fnDesc.pipeline.keys := by
  rw [FunctionPipelineDescription.next, FunctionPipelineDescription.function] at h
  cases hg : job.fnDesc.pipeline.get fnName
  case none => rw [hg] at h; contradiction
  case some fn => exact Dict.mem_keys_iff.mpr ⟨fn, hg⟩

theorem saved_of_fnChain (h : fnChain env draw job n 0 job.fnDesc.first = some chain) : Saved job chain := by
  rw [fnChain_eq] at h
  obtain ⟨names, hw, rfl⟩ := Option.map_eq_some_iff.mp h
  obtain ⟨he, _⟩ := Successor.walk_eq_some_iff.mp hw
  constructor
  case path =>
    refine ⟨names, he, ?_⟩
    have hf : (fun function : Requested => function.dockerFnName) ∘
        (fun (name, ii) => chainFunction env draw job ii name) =
          (fun name => (job.fnDesc.function name).image) ∘ Prod.fst := by
      funext ⟨name, ii⟩
      simp only [Function.comp_apply, chainFunction]
    rw [List.map_map, hf, ← List.map_map, List.zipIdx_map_fst]
  case length =>
    rw [List.length_map, List.length_zipIdx]
    exact he.length_le fun _ _ => mem_keys_of_next
  case node =>
    intro function hf
    obtain ⟨_, _, rfl⟩ := List.mem_map.mp hf
    rfl
  case alike =>
    intro function hf function' hf'
    obtain ⟨_, _, rfl⟩ := List.mem_map.mp hf
    obtain ⟨_, _, rfl⟩ := List.mem_map.mp hf'
    simp only [chainFunction, and_self]

theorem isSome_fnChain {names : List String} (he : Successor.Ends job.fnDesc.next job.fnDesc.first names)
    (hn : names.length ≤ n) : ∃ chain, fnChain env draw job n 0 job.fnDesc.first = some chain := by
  rw [fnChain_eq, Successor.walk_eq_some_iff.mpr ⟨he, hn⟩]
  exact ⟨_, rfl⟩

theorem exists_ends_iff : (∃ names, Successor.Ends job.fnDesc.next job.fnDesc.first names) ↔ ¬Circular job := by
  rw [Successor.exists_ends_iff (s := job.fnDesc.pipeline.keys) fun _ _ => mem_keys_of_next, Circular]
  simp only [not_exists, not_and]

theorem saveFile_of_makes (h : Makes env functionDescriptions) : saveFile env draws functionDescriptions n =
    (jobs env functionDescriptions).zipIdx.mapM fun (job, ii) => fnChain env (draws ii) job n 0 job.fnDesc.first :=
  if_pos h

theorem makes_of_saveFile (h : saveFile env draws functionDescriptions n = some functions) :
    Makes env functionDescriptions := by
  by_contra hm
  rw [saveFile, if_neg hm] at h
  contradiction

theorem saved_of_saveFile (h : saveFile env draws functionDescriptions n = some functions) :
    List.Forall₂ Saved (jobs env functionDescriptions) functions := by
  rw [saveFile_of_makes (makes_of_saveFile h)] at h
  have hs : List.Forall₂ (fun (job : Job × ℕ) chain => Saved job.1 chain) (jobs env functionDescriptions).zipIdx
      functions :=
    (Lists.forall₂_of_mapM h).imp fun _ _ => saved_of_fnChain
  rw [← List.zipIdx_map_fst 0 (jobs env functionDescriptions), List.forall₂_map_left_iff]
  exact hs

theorem not_circular_of_saveFile (h : saveFile env draws functionDescriptions n = some functions)
    (hj : job ∈ jobs env functionDescriptions) : ¬Circular job := by
  rw [saveFile_of_makes (makes_of_saveFile h)] at h
  rw [← List.zipIdx_map_fst 0 (jobs env functionDescriptions)] at hj
  obtain ⟨⟨job, ii⟩, hm, rfl⟩ := List.mem_map.mp hj
  have hs := Lists.isSome_of_mapM (Option.isSome_iff_exists.mpr ⟨functions, h⟩) (job, ii) hm
  obtain ⟨chain, hc⟩ := Option.isSome_iff_exists.mp hs
  obtain ⟨names, he, _⟩ := (saved_of_fnChain hc).path
  exact exists_ends_iff.mp ⟨names, he⟩

-- There are as many rounds as it takes for the longest of the chains.
theorem exists_saveFile (hm : Makes env functionDescriptions)
    (h : ∀ job ∈ jobs env functionDescriptions, ¬Circular job) :
    ∃ n functions, saveFile env draws functionDescriptions n = some functions := by
  let lengths := (jobs env functionDescriptions).map fun job => job.fnDesc.pipeline.keys.length + 1
  refine ⟨lengths.sum, ?_⟩
  rw [saveFile_of_makes hm]
  apply Option.isSome_iff_exists.mp (Lists.mapM_isSome _)
  rintro ⟨job, ii⟩ hj
  have hm : job ∈ jobs env functionDescriptions := List.fst_mem_of_mem_zipIdx hj
  obtain ⟨names, he⟩ := exists_ends_iff.mpr (h job hm)
  have hl : names.length ≤ lengths.sum := by
    apply Nat.le_trans (he.length_le fun _ _ => mem_keys_of_next)
    exact List.le_sum_of_mem (List.mem_map_of_mem hm)
  exact Option.isSome_iff_exists.mpr (isSome_fnChain he hl)

-- The loop over the functions of a chain ends unless their description leads in a circle. The file has a chain for
-- each one which is asked for then.
theorem saveFile_iff :
    ((∃ n functions, saveFile env draws functionDescriptions n = some functions) ↔
      Makes env functionDescriptions ∧ ∀ job ∈ jobs env functionDescriptions, ¬Circular job) ∧
    ∀ n functions, saveFile env draws functionDescriptions n = some functions →
      List.Forall₂ Saved (jobs env functionDescriptions) functions := by
  refine ⟨?_, fun n functions => saved_of_saveFile⟩
  constructor
  case mp =>
    rintro ⟨n, functions, h⟩
    exact ⟨makes_of_saveFile h, fun job => not_circular_of_saveFile h⟩
  case mpr =>
    rintro ⟨hm, hc⟩
    exact exists_saveFile hm hc

end Expe
