import FogMarket.Library.Except
import FogMarket.Library.Map
import FogMarket.Objects.Quantity
import Mathlib

namespace Fog.K8s

structure Usage where
  cpu    : Ratio
  memory : Information

structure Allocatable where
  cpu    : Ratio
  memory : Information

structure Metrics where
  usage       : Option Usage
  allocatable : Option Allocatable

inductive MissingUnitType
  -- The unit has been received but for its rightmost part.
  | suffix (s : String)
  -- The received unit is replaced.
  | complete (s : String)

-- What is used of the third-party libraries: the classes of characters in `regex`, and the quantities of `uom`.
structure Libraries where
  isDigit     : Char → Bool
  isWord      : Char → Bool
  ratio       : String → Option Ratio
  information : String → Option Information

-- What is listed of the usage of a node.
structure NodeMetrics where
  name   : Option String
  cpu    : String
  memory : String

structure NodeStatus where
  allocatable : Option (Map String String)

structure Node where
  name   : Option String
  status : Option NodeStatus

variable (lib : Libraries)

-- The captures of `^(\d+)(\w*)$`. If the characters behind the digits are not all word characters, they are not if some
-- of the digits are left to them, either.
def captures (quantity : List Char) : Option (List Char × List Char) :=
  let measure := quantity.takeWhile lib.isDigit
  let unit := quantity.dropWhile lib.isDigit
  if measure ≠ [] ∧ unit.all lib.isWord then some (measure, unit) else none

def MissingUnitType.unit (unitPrefix : String) : MissingUnitType → String
  | suffix s   => unitPrefix ++ s
  | complete s => s

def parseQuantity (parse : String → Option ℚ) (quantity : String) (missingUnit : MissingUnitType) : Except String ℚ :=
  match captures lib quantity.toList with
  | none => .error s!"Failed to parse quantity '{quantity}'"
  | some (measure, unitPrefix) =>
    match parse (String.ofList measure ++ " " ++ missingUnit.unit (String.ofList unitPrefix)) with
    | none     => .error s!"Failed to parse the quantity string to the final required type '{quantity}'"
    | some qty => .ok qty

namespace Usage

def parseCpu (quantity : String) : Except String Ratio :=
  parseQuantity lib lib.ratio quantity (.complete "ppb")

end Usage

namespace Allocatable

def parseCpu (quantity : String) : Except String Ratio :=
  parseQuantity lib lib.ratio quantity (.complete "")

end Allocatable

def parseMemory (quantity : String) : Except String Information :=
  parseQuantity lib lib.information quantity (.suffix "B")

def insertUsage (aggregatedMetrics : Map String Metrics) (metric : NodeMetrics) :
    Except String (Map String Metrics) := do
  let key ← metric.name.elim
    (.error "Missing 'metadata:name' key in the retrieved list of metrics from k8s") .ok
  let cpu ← Usage.parseCpu lib metric.cpu
  let memory ← parseMemory lib metric.memory
  return aggregatedMetrics.insert key { usage := some { cpu, memory }, allocatable := none }

def insertAllocatable (aggregatedMetrics : Map String Metrics) (node : Node) : Except String (Map String Metrics) := do
  let status ← node.status.elim (.error " Missing 'status' key from the k8s node") .ok
  let allocatable ← status.allocatable.elim (.error " Missing 'allocatable' key from the k8s node") .ok
  let key ← node.name.elim (.error " Missing 'metadata:name' key from the k8s node") .ok
  let cpu ← (allocatable.lookup "cpu").elim (.error " Missing 'cpu' key from the k8s node allocatables") .ok
  let memory ← (allocatable.lookup "memory").elim (.error " Missing 'memory' key from the k8s node allocatables") .ok
  let cpu ← Allocatable.parseCpu lib cpu
  let memory ← parseMemory lib memory
  let metrics ← (aggregatedMetrics.lookup key).elim
    (.error " Missing 'metadata:name' key from the k8s metrics") .ok
  return aggregatedMetrics.insert key { metrics with allocatable := some { cpu, memory } }

def getK8sMetrics (metrics : List NodeMetrics) (nodes : List Node) : Except String (Map String Metrics) := do
  let aggregatedMetrics ← metrics.foldlM (insertUsage lib) ∅
  nodes.foldlM (insertAllocatable lib) aggregatedMetrics

-- The suffixes of the quantities of cpu in Kubernetes.
inductive CpuSuffix
  | whole
  | milli
  | micro
  | nano
  deriving DecidableEq

namespace CpuSuffix

def text : CpuSuffix → String
  | whole => ""
  | milli => "m"
  | micro => "u"
  | nano  => "n"

def digits : CpuSuffix → ℕ
  | whole => 0
  | milli => 3
  | micro => 6
  | nano  => 9

-- The number of cpus which a quantity denotes.
def denote (number : List Char) (suffix : CpuSuffix) : ℚ :=
  Nat.ofDigitChars 10 number 0 / 10 ^ suffix.digits

end CpuSuffix

-- What `regex` documents of some characters.
structure Lawful : Prop where
  word   : ∀ c : Char, c.isAlphanum = true → lib.isWord c = true
  digit  : ∀ c : Char, c.isDigit = true → lib.isDigit c = true
  letter : ∀ c : Char, c.isAlpha = true → lib.isDigit c = false

-- The number is read exactly in the units.
structure Exact (number : List Char) : Prop where
  ratio          : lib.ratio (String.ofList number ++ " ") = some (Nat.ofDigitChars 10 number 0 : ℚ)
  partPerBillion : lib.ratio (String.ofList number ++ " ppb") = some (Nat.ofDigitChars 10 number 0 / 10 ^ 9 : ℚ)

variable {lib} {number : List Char} {suffix : CpuSuffix}

theorem captures_append (lawful : Lawful lib) (hn : number ≠ []) (hd : ∀ c ∈ number, c.isDigit = true) :
    captures lib (String.ofList number ++ suffix.text).toList = some (number, suffix.text.toList) := by
  have hl : (String.ofList number ++ suffix.text).toList = number ++ suffix.text.toList := by
    rw [String.toList_append, String.toList_ofList]
  have hp : ∀ c ∈ number, lib.isDigit c = true := fun c hc => lawful.digit c (hd c hc)
  have ha : suffix.text.toList.all Char.isAlpha = true := by
    cases suffix
    all_goals decide
  rw [List.all_eq_true] at ha
  have ht : suffix.text.toList.takeWhile lib.isDigit = [] ∧
      suffix.text.toList.dropWhile lib.isDigit = suffix.text.toList := by
    cases hs : suffix.text.toList
    case nil => simp
    case cons c l => simp [lawful.letter c (ha c (hs ▸ .head _))]
  have hw : suffix.text.toList.all lib.isWord = true := by
    rw [List.all_eq_true]
    exact fun c hc => lawful.word c (by simp [Char.isAlphanum, ha c hc])
  rw [captures, hl, List.takeWhile_append_of_pos hp, List.dropWhile_append_of_pos hp, ht.left, ht.right,
    List.append_nil]
  exact if_pos ⟨hn, hw⟩

-- The suffix is not looked at.
theorem parseCpu_usage (lawful : Lawful lib) (exact : Exact lib number) (hn : number ≠ [])
    (hd : ∀ c ∈ number, c.isDigit = true) :
    Usage.parseCpu lib (String.ofList number ++ suffix.text) = .ok (CpuSuffix.nano.denote number) := by
  simp only [Usage.parseCpu, parseQuantity, captures_append lawful hn hd, MissingUnitType.unit]
  rw [String.append_assoc]
  simp [exact.partPerBillion, CpuSuffix.denote, CpuSuffix.digits]

theorem parseCpu_allocatable (lawful : Lawful lib) (exact : Exact lib number) (hn : number ≠ [])
    (hd : ∀ c ∈ number, c.isDigit = true) :
    Allocatable.parseCpu lib (String.ofList number ++ suffix.text) = .ok (CpuSuffix.whole.denote number) := by
  simp only [Allocatable.parseCpu, parseQuantity, captures_append lawful hn hd, MissingUnitType.unit]
  simp [exact.ratio, CpuSuffix.denote, CpuSuffix.digits]

theorem denote_eq_denote_iff {s t : CpuSuffix} (hd : ∀ c ∈ number, c.isDigit = true) :
    s.denote number = t.denote number ↔ s = t ∨ ∀ c ∈ number, c = '0' := by
  have hz (k : ℕ) : (10 : ℚ) ^ k ≠ 0 := pow_ne_zero k (by decide)
  have hp : (10 : ℚ) ^ t.digits = 10 ^ s.digits ↔ s = t := by
    rw [pow_right_inj₀ (by decide) (by decide)]
    cases s <;> cases t <;> decide
  rw [← Decimal.ofDigitChars_eq_zero_iff hd, CpuSuffix.denote, CpuSuffix.denote, div_eq_div_iff (hz _) (hz _),
    mul_eq_mul_left_iff, hp, Nat.cast_eq_zero]

-- Both texts are read as they are meant if the quantity is zero.
theorem parseCpu_eq_denote_iff (lawful : Lawful lib) (exact : Exact lib number) (hn : number ≠ [])
    (hd : ∀ c ∈ number, c.isDigit = true) :
    (Allocatable.parseCpu lib (String.ofList number ++ suffix.text) = .ok (suffix.denote number) ∧
        Usage.parseCpu lib (String.ofList number ++ suffix.text) = .ok (suffix.denote number)) ↔
      ∀ c ∈ number, c = '0' := by
  rw [parseCpu_allocatable lawful exact hn hd, parseCpu_usage lawful exact hn hd, Except.ok.injEq, Except.ok.injEq,
    denote_eq_denote_iff hd, denote_eq_denote_iff hd]
  constructor
  case mp =>
    intro ⟨hw, hs⟩
    cases hw
    case inr h => exact h
    case inl h =>
      apply hs.resolve_left
      rw [← h]
      decide
  case mpr => exact fun h => ⟨.inr h, .inr h⟩

-- Libraries which convert without rounding, and know some of the units.
def Libraries.exactly : Libraries where
  isDigit     := Char.isDigit
  isWord c    := c.isAlphanum || c = '_'
  ratio       := Quantity.readUnit [("", 1), ("%", 1 / 100), ("ppm", 1 / 10 ^ 6), ("ppb", 1 / 10 ^ 9)]
  information := Quantity.readUnit [("B", 1), ("KiB", 1024), ("MiB", 1024 ^ 2), ("GiB", 1024 ^ 3)]

theorem Lawful.exactly : Lawful .exactly where
  word c h   := by simp [Libraries.exactly, h]
  digit c h  := h
  letter c h := by
    simp only [Char.isAlpha, Char.isUpper, Char.isLower, Bool.or_eq_true, Bool.and_eq_true, decide_eq_true_eq,
      UInt32.le_iff_toNat_le] at h
    simp only [Libraries.exactly, Char.isDigit, Bool.and_eq_false_iff, decide_eq_false_iff_not, ge_iff_le,
      UInt32.le_iff_toNat_le]
    simp at h ⊢
    omega

theorem parseCpu_eq_denote_iff_of_zeros :
    (Allocatable.parseCpu .exactly (String.ofList ['0', '0'] ++ CpuSuffix.milli.text) =
          .ok (CpuSuffix.milli.denote ['0', '0']) ∧
        Usage.parseCpu .exactly (String.ofList ['0', '0'] ++ CpuSuffix.milli.text) =
          .ok (CpuSuffix.milli.denote ['0', '0'])) ↔
      ∀ c ∈ ['0', '0'], c = '0' :=
  parseCpu_eq_denote_iff .exactly ⟨by decide +kernel, by decide +kernel⟩ (by simp) (by simp)

-- One and a half cpus are a thousand times as many, or a millionth of them.
theorem parseCpu_slip :
    CpuSuffix.milli.denote "1500".toList = 3 / 2 ∧
      Allocatable.parseCpu .exactly "1500m" = .ok 1500 ∧
      Usage.parseCpu .exactly "1500m" = .ok (3 / 2000000) := by
  refine ⟨by decide +kernel, by decide +kernel, by decide +kernel⟩

section Reads

variable {metrics : List NodeMetrics} {nodes : List Node} {aggregatedMetrics aggregatedMetrics' : Map String Metrics}
variable {name : String} {m : Metrics}

-- What is known of a node has been listed under its name.
structure Reads (lib : Libraries) (metrics : List NodeMetrics) (nodes : List Node) (name : String) (m : Metrics) :
    Prop where
  usage       : ∃ metric ∈ metrics, metric.name = some name ∧
    ∃ usage, m.usage = some usage ∧ Usage.parseCpu lib metric.cpu = .ok usage.cpu
  allocatable : ∀ allocatable, m.allocatable = some allocatable →
    ∃ node ∈ nodes, node.name = some name ∧ ∃ status quantities cpu, node.status = some status ∧
      status.allocatable = some quantities ∧ quantities.lookup "cpu" = some cpu ∧
      Allocatable.parseCpu lib cpu = .ok allocatable.cpu

def AllRead (lib : Libraries) (metrics : List NodeMetrics) (nodes : List Node)
    (aggregatedMetrics : Map String Metrics) : Prop :=
  ∀ name m, aggregatedMetrics.lookup name = some m → Reads lib metrics nodes name m

theorem allRead_insertUsage {metric : NodeMetrics} (hm : metric ∈ metrics)
    (hr : AllRead lib metrics nodes aggregatedMetrics)
    (h : insertUsage lib aggregatedMetrics metric = .ok aggregatedMetrics') :
    AllRead lib metrics nodes aggregatedMetrics' := by
  simp only [insertUsage, Except.bind_eq_ok_iff, Except.elim_eq_ok_iff] at h
  have ⟨key, hk, cpu, hc, memory, _, h⟩ := h
  cases h
  intro name m hl
  rw [Map.lookup_insert_eq] at hl
  split at hl
  case isTrue he =>
    cases hl
    constructor
    case usage => exact ⟨metric, hm, he ▸ hk, _, rfl, hc⟩
    case allocatable => exact fun _ ha => nomatch ha
  case isFalse => exact hr name m hl

theorem allRead_insertAllocatable {node : Node} (hn : node ∈ nodes)
    (hr : AllRead lib metrics nodes aggregatedMetrics)
    (h : insertAllocatable lib aggregatedMetrics node = .ok aggregatedMetrics') :
    AllRead lib metrics nodes aggregatedMetrics' := by
  simp only [insertAllocatable, Except.bind_eq_ok_iff, Except.elim_eq_ok_iff] at h
  have ⟨status, hs, quantities, hq, key, hk, text, ht, _, _, cpu, hc, memory, _, m', hl', h⟩ := h
  cases h
  intro name m hl
  rw [Map.lookup_insert_eq] at hl
  split at hl
  case isTrue he =>
    cases hl
    subst he
    constructor
    case usage => exact (hr _ _ hl').usage
    case allocatable =>
      intro allocatable ha
      cases ha
      exact ⟨node, hn, hk, status, quantities, text, hs, hq, ht, hc⟩
  case isFalse => exact hr name m hl

theorem reads_of_getK8sMetrics (h : getK8sMetrics lib metrics nodes = .ok aggregatedMetrics)
    (hl : aggregatedMetrics.lookup name = some m) : Reads lib metrics nodes name m := by
  rw [getK8sMetrics, Except.bind_eq_ok_iff] at h
  have ⟨used, hu, ha⟩ := h
  have hr : AllRead lib metrics nodes used := by
    have he : AllRead lib metrics nodes ∅ := fun name m hl => nomatch hl
    apply Except.foldlM_invariant he _ hu
    exact fun metric hm _ _ => allRead_insertUsage hm
  have hr : AllRead lib metrics nodes aggregatedMetrics := by
    apply Except.foldlM_invariant hr _ ha
    exact fun node hn _ _ => allRead_insertAllocatable hn
  exact hr name m hl

end Reads

end Fog.K8s
