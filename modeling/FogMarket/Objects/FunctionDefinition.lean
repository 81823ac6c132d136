import FogMarket.Objects.Quantity

-- The quantities of Kubernetes which are written with the suffix for millions.
def kubernetesQuantity (s : String) : Option ℚ :=
  match s.toList.getLast? with
  | some 'M' => (Decimal.value s.toList.dropLast).map (· * 1000000)
  | _        => none

-- `format!("{}M", value.get::<megabyte>())`
def InformationHelper.serializeAs (value : Information) : String :=
  Quantity.displayRatio (value / 1000000) ++ "M"

structure Limits where
  cpu    : Ratio
  memory : Information

structure Requests where
  cpu    : Ratio
  memory : Information

structure FunctionDefinition where
  limits   : Option Limits
  requests : Option Requests

namespace FunctionDefinition

-- What `provision_function` asks OpenFaaS for.
def ofSla (sla : Sla) : FunctionDefinition where
  limits   := some { memory := sla.memory, cpu := sla.cpu }
  requests := some { memory := sla.memory, cpu := sla.cpu }

variable {q r : ℚ} {sla : Sla}

theorem kubernetesQuantity_append {s : String} :
    kubernetesQuantity (s ++ "M") = (Decimal.value s.toList).map (· * 1000000) := by
  have h : (s ++ "M").toList = s.toList ++ ['M'] := by
    rw [String.toList_append]
    rfl
  simp [kubernetesQuantity, h]

theorem value_displayRatio (h : 0 ≤ q) :
    Decimal.value (Quantity.displayRatio q).toList = if q.den = 1 then some q else none := by
  rw [Quantity.displayRatio]
  split
  case isTrue hd =>
    have hq : ((q.num.natAbs : ℕ) : ℚ) = q := by
      rw [← Int.cast_natCast, Int.natAbs_of_nonneg (Rat.num_nonneg.mpr h)]
      exact (Rat.den_eq_one_iff q).mp hd
    rw [Quantity.toList_toString_num h, Decimal.value_toDigits, hq]
  case isFalse =>
    have hm : '/' ∈ (toString q.num ++ "/" ++ toString q.den).toList := by
      simp only [String.toList_append, List.mem_append]
      exact .inl (.inr (by decide))
    exact Decimal.value_eq_none hm (by decide) (by decide)

theorem serializeAs_iff (h : 0 ≤ r) :
    kubernetesQuantity (InformationHelper.serializeAs r) = some r ↔ (r / 1000000).den = 1 := by
  have hn : 0 ≤ r / 1000000 := div_nonneg h (by decide)
  rw [InformationHelper.serializeAs, kubernetesQuantity_append, value_displayRatio hn]
  split
  case isTrue hd => simp [hd]
  case isFalse hd => simp [hd]

-- The memory is denoted by the limits and the requests if it is a whole number of megabytes.
theorem memory_iff (h : 0 ≤ sla.memory) :
    ((∀ limits, (ofSla sla).limits = some limits →
        kubernetesQuantity (InformationHelper.serializeAs limits.memory) = some sla.memory) ∧
      ∀ requests, (ofSla sla).requests = some requests →
        kubernetesQuantity (InformationHelper.serializeAs requests.memory) = some sla.memory) ↔
      (sla.memory / 1000000).den = 1 := by
  simp [ofSla, serializeAs_iff h]

def asking (memory : Information) : Sla where
  id           := ⟨0⟩
  memory       := memory
  cpu          := 1
  latencyMax   := 1
  duration     := 1000
  maxReplica   := 1
  inputMaxSize := 0

theorem memory_iff_gigabytes :
    ((∀ limits, (ofSla (asking 7680000000)).limits = some limits →
        kubernetesQuantity (InformationHelper.serializeAs limits.memory) = some 7680000000) ∧
      ∀ requests, (ofSla (asking 7680000000)).requests = some requests →
        kubernetesQuantity (InformationHelper.serializeAs requests.memory) = some 7680000000) ↔
      (7680000000 / 1000000 : ℚ).den = 1 :=
  memory_iff (by decide +kernel : 0 ≤ (asking 7680000000).memory)

-- The memory of 48 KiB is written as a fraction.
theorem memory_slip :
    Quantity.Information.parseQuantity .exactly "48 KiB" = .ok 49152 ∧
      ((ofSla (asking 49152)).limits.map fun limits => InformationHelper.serializeAs limits.memory) =
        some "768/15625M" ∧
      kubernetesQuantity "768/15625M" = none := by
  refine ⟨by decide +kernel, by decide +kernel, by decide +kernel⟩

end FunctionDefinition
