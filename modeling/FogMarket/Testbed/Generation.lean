import FogMarket.Library.Decimal
import FogMarket.Library.Returns
import FogMarket.Testbed.Net
import Mathlib.Data.Rat.Floor

-- The networks which are generated for the experiments.
namespace Testbed

-- What has been drawn and named so far.
structure Gen where
  uuid  : ℕ
  drawn : ℕ
  named : ℕ

inductive Modifier
  | setCloud
  | setIotConnected (dropOneIn : ℕ)
  | dropChildren (dropOneIn : ℕ)
  | flavorRandomizerMem (reductions : List ℕ)
  | flavorRandomizerCpu (reductions : List ℕ)

structure Level where
  flavor    : Flavor
  nbNodes   : ℕ × ℕ
  latencies : ℕ × ℕ
  rates     : ℕ × ℕ
  modifiers : List Modifier

namespace Node

def setChildren : Node → List Node → Node
  | node name flavor latency rate iotConnected _, children => node name flavor latency rate iotConnected children

def setIotConnected : Node → ℕ → Node
  | node name flavor latency rate _ children, iotConnected => node name flavor latency rate (some iotConnected) children

def setFlavor : Node → Flavor → Node
  | node name _ latency rate iotConnected children, flavor => node name flavor latency rate iotConnected children

end Node

def Flavor.reduceMem (flavor : Flavor) (diff : ℕ) : Flavor :=
  { flavor with mem := flavor.mem - diff, reservedMem := flavor.reservedMem - diff }

def Flavor.reduceCpu (flavor : Flavor) (diff : ℕ) : Flavor :=
  { flavor with core := flavor.core - diff, reservedCore := flavor.reservedCore - diff }

section Generation

-- The outcomes of the random numbers, and the random names without their hyphens.
variable (draw : ℕ → ℕ) (word : ℕ → String)

-- An empty range is an error.
def randint (a b : ℕ) : StateT Gen Option ℕ := fun s =>
  if a ≤ b then some (a + draw s.drawn % (b - a + 1), { s with drawn := s.drawn + 1 }) else none

def getName : StateT Gen Option String := fun s =>
  some (word s.named, { s with named := s.named + 1 })

def nextUuid : StateT Gen Option ℕ := fun s =>
  some (s.uuid + 1, { s with uuid := s.uuid + 1 })

def Modifier.apply (dd : Node) (first : Bool) : Modifier → StateT Gen Option Node
  | setCloud                  => return dd
  | setIotConnected dropOneIn => do
    if first then
      return dd.setIotConnected 0
    else
      let r ← randint draw 1 dropOneIn
      return if r ≠ 1 then dd.setIotConnected 0 else dd
  | dropChildren dropOneIn => do
    if first then
      return dd
    else
      let r ← randint draw 1 dropOneIn
      return if r = 1 then dd.setChildren [] else dd
  | flavorRandomizerMem reductions => do
    let diffIndex ← randint draw 0 (reductions.length - 1)
    let diff ← reductions[diffIndex]?
    let flavor := dd.flavor.reduceMem (1024 * diff)
    if flavor.mem ≠ 0 ∧ flavor.reservedMem ≠ 0 then
      return dd.setFlavor flavor
    else
      failure
  | flavorRandomizerCpu reductions => do
    let diffIndex ← randint draw 0 (reductions.length - 1)
    let diff ← reductions[diffIndex]?
    let flavor := dd.flavor.reduceCpu diff
    if flavor.core ≠ 0 ∧ flavor.reservedCore ≠ 0 then
      return dd.setFlavor flavor
    else
      failure

def city (level : Level) (nextLvl : StateT Gen Option (List Node)) (depth : ℕ) (first : Bool) :
    StateT Gen Option Node := do
  let uuid ← nextUuid
  let rateMin := min level.rates.1 level.rates.2
  let rateMax := max level.rates.1 level.rates.2
  let word ← getName word
  let latency ← randint draw level.latencies.1 level.latencies.2
  let factor ← randint draw 1 ⌈(rateMax / rateMin : ℚ)⌉₊
  let children ← nextLvl
  let name := toString depth ++ word ++ toString uuid
  let dd := Node.node name level.flavor latency (rateMin * factor : ℕ) none children
  level.modifiers.foldlM (fun dd modifier => modifier.apply draw dd first) dd

-- The loop over the cities of a level.
def cities (generate : Bool → StateT Gen Option Node) : ℕ → Bool → StateT Gen Option (List Node)
  | 0,     _     => return []
  | n + 1, first => do
    let dd ← generate first
    let rest ← cities generate n false
    return dd :: rest

-- The levels below each other.
def generateLevel : List Level → ℕ → StateT Gen Option (List Node)
  | [],            _     => return []
  | level :: rest, depth => do
    let n ← randint draw level.nbNodes.1 level.nbNodes.2
    cities (city draw word level (generateLevel rest (depth + 1)) depth) n true

-- `sizeMultiplier` is half of the variable of the environment.
def levels (sizeMultiplier : ℚ) : List Level := [
  {
    flavor    := tier1Flavor
    nbNodes   := (1, ⌊6 * sizeMultiplier⌋₊)
    latencies := (1, 3)
    rates     := (1000000000, 1000000000)
    modifiers := [.setCloud, .dropChildren 2]
  },
  {
    flavor    := tier2Flavor
    nbNodes   := (2, ⌊4 * sizeMultiplier⌋₊)
    latencies := (6, 32)
    rates     := (500000000, 1000000000)
    modifiers := [.dropChildren 3, .flavorRandomizerCpu [0, 2, 4], .flavorRandomizerMem [0, 2, 4]]
  },
  {
    flavor    := tier3Flavor
    nbNodes   := (3, ⌊8 * sizeMultiplier⌋₊)
    latencies := (7, 64)
    rates     := (100000000, 1000000000)
    modifiers := [.dropChildren 6, .flavorRandomizerCpu [0, 2], .flavorRandomizerMem [0, 2, 4]]
  },
  {
    flavor    := tier4Flavor
    nbNodes   := (2, ⌊8 * sizeMultiplier⌋₊)
    latencies := (1, 4)
    rates     := (10000000, 1000000000)
    modifiers := [.setIotConnected 6, .flavorRandomizerMem [0, 2]]
  }
]

def networkGeneration (sizeMultiplier : ℚ) : StateT Gen Option Node := do
  let children ← generateLevel draw word (levels sizeMultiplier) 1
  return .node "market" tier1Flavor 0 oneGbit none children

end Generation

-- The digits at the end of a name.
def number (name : String) : ℕ :=
  Nat.ofDigitChars 10 (name.toList.reverse.takeWhile Char.isDigit).reverse 0

theorem number_append {word : String} {l : List Char} {c : Char} (h : word.toList = l ++ [c]) (hc : c.isDigit = false)
    (start : String) (n : ℕ) : number (start ++ word ++ toString n) = n := by
  have hd : ∀ d ∈ (Nat.toDigits 10 n).reverse, d.isDigit = true :=
    fun d hd => Decimal.isDigit_toDigits (List.mem_reverse.mp hd)
  have ht : (toString n).toList = Nat.toDigits 10 n := by
    rw [Nat.toString_eq_repr, Nat.toList_repr]
  rw [number, String.toList_append, String.toList_append, ht, h]
  simp only [List.reverse_append, List.reverse_cons, List.reverse_nil, List.nil_append, List.cons_append]
  rw [List.takeWhile_append_of_pos hd, List.takeWhile_cons_of_neg (by simp [hc]), List.append_nil, List.reverse_reverse,
    Nat.ofDigitChars_ten_toDigits]

-- The nodes have numbers of their own within a range.
structure Numbered (lo hi : ℕ) (nodes : List Node) : Prop where
  nodup : (nodes.map fun node => number node.name).Nodup
  range : ∀ node ∈ nodes, lo < number node.name ∧ number node.name ≤ hi

namespace Numbered

variable {lo mid hi : ℕ} {nodes nodes' : List Node}

theorem nil : Numbered lo hi [] where
  nodup      := .nil
  range _ h  := nomatch h

theorem append (h : Numbered lo mid nodes) (h' : Numbered mid hi nodes') (hl : lo ≤ mid) (hh : mid ≤ hi) :
    Numbered lo hi (nodes ++ nodes') where
  nodup := by
    rw [List.map_append]
    apply List.Nodup.append h.nodup h'.nodup
    intro n hn hn'
    obtain ⟨node, hm, rfl⟩ := List.mem_map.mp hn
    obtain ⟨node', hm', he⟩ := List.mem_map.mp hn'
    have := (h.range node hm).2
    have := (h'.range node' hm').1
    omega
  range node hm := by
    cases List.mem_append.mp hm
    case inl hm =>
      have := h.range node hm
      omega
    case inr hm =>
      have := h'.range node hm
      omega

theorem single {node : Node} (h : lo < number node.name) (h' : number node.name ≤ hi) : Numbered lo hi [node] where
  nodup       := List.nodup_singleton _
  range n hn  := by
    cases List.mem_singleton.mp hn
    exact ⟨h, h'⟩

theorem nodup_names (h : Numbered lo hi nodes) : (nodes.map Node.name).Nodup :=
  .of_map number (by rw [List.map_map]; exact h.nodup)

end Numbered

@[mk_iff]
structure Flavor.Positive (flavor : Flavor) : Prop where
  core         : 0 < flavor.core
  reservedCore : 0 < flavor.reservedCore
  mem          : 0 < flavor.mem
  reservedMem  : 0 < flavor.reservedMem

-- Something is left of a flavor whatever is drawn.
def Affords : List Modifier → Flavor → Prop
  | [],                                     flavor => flavor.Positive
  | .setCloud :: rest,                      flavor => Affords rest flavor
  | .setIotConnected dropOneIn :: rest,     flavor => 1 ≤ dropOneIn ∧ Affords rest flavor
  | .dropChildren dropOneIn :: rest,        flavor => 1 ≤ dropOneIn ∧ Affords rest flavor
  | .flavorRandomizerMem reductions :: rest, flavor =>
    reductions ≠ [] ∧ ∀ diff ∈ reductions, Affords rest (flavor.reduceMem (1024 * diff))
  | .flavorRandomizerCpu reductions :: rest, flavor =>
    reductions ≠ [] ∧ ∀ diff ∈ reductions, Affords rest (flavor.reduceCpu diff)

theorem Affords.positive {modifiers : List Modifier} {flavor : Flavor} (h : Affords modifiers flavor) :
    flavor.Positive := by
  induction modifiers generalizing flavor
  case nil => exact h
  case cons modifier rest hi =>
    cases modifier
    case setCloud => exact hi h
    case setIotConnected => exact hi h.2
    case dropChildren => exact hi h.2
    case flavorRandomizerMem reductions =>
      obtain ⟨diff, hd⟩ := List.exists_mem_of_ne_nil _ h.1
      obtain ⟨hc, hrc, hm, hrm⟩ := hi (h.2 diff hd)
      have : (0 : ℚ) ≤ (1024 * diff : ℕ) := Nat.cast_nonneg _
      simp only [Flavor.reduceMem] at hc hrc hm hrm
      exact ⟨hc, hrc, by linarith, by linarith⟩
    case flavorRandomizerCpu reductions =>
      obtain ⟨diff, hd⟩ := List.exists_mem_of_ne_nil _ h.1
      obtain ⟨hc, hrc, hm, hrm⟩ := hi (h.2 diff hd)
      have : (0 : ℚ) ≤ diff := Nat.cast_nonneg _
      simp only [Flavor.reduceCpu] at hc hrc hm hrm
      exact ⟨by linarith, by linarith, hm, hrm⟩

-- What the modifiers leave as it is. The first city of a level keeps its children.
structure Modified (first : Bool) (dd dd' : Node) : Prop where
  name     : dd'.name = dd.name
  latency  : dd'.latency = dd.latency
  rate     : dd'.rate = dd.rate
  children : dd'.children = dd.children ∨ first = false ∧ dd'.children = []
  iot      : dd.iotConnected.isSome → dd'.iotConnected.isSome

theorem Modified.refl {first : Bool} {dd : Node} : Modified first dd dd :=
  ⟨rfl, rfl, rfl, .inl rfl, id⟩

theorem Modified.trans {first : Bool} {dd dd' dd'' : Node} (h : Modified first dd dd') (h' : Modified first dd' dd'') :
    Modified first dd dd'' where
  name     := h'.name.trans h.name
  latency  := h'.latency.trans h.latency
  rate     := h'.rate.trans h.rate
  children := by
    cases h'.children
    case inl he =>
      rw [he]
      exact h.children
    case inr he => exact .inr he
  iot hi   := h'.iot (h.iot hi)

structure Node.Fits (node : Node) : Prop where
  flavor  : node.flavor.Positive
  latency : 1 ≤ node.latency
  rate    : 0 < node.rate ∧ node.rate.den = 1

-- Nothing goes wrong at the level.
structure Level.Valid (level : Level) : Prop where
  nbNodes   : 1 ≤ level.nbNodes.1 ∧ level.nbNodes.1 ≤ level.nbNodes.2
  latencies : 1 ≤ level.latencies.1 ∧ level.latencies.1 ≤ level.latencies.2
  rates     : 0 < level.rates.1 ∧ 0 < level.rates.2
  affords   : Affords level.modifiers level.flavor

-- The IoT devices are connected to the first city of the level.
def Level.Connects (level : Level) : Prop :=
  ∃ n, .setIotConnected n ∈ level.modifiers

structure Produced (g : Gen) (nodes : List Node) (g' : Gen) : Prop where
  uuid     : g.uuid ≤ g'.uuid
  numbered : Numbered g.uuid g'.uuid nodes
  fits     : ∀ node ∈ nodes, node.Fits

theorem Produced.append {g g' g'' : Gen} {nodes nodes' : List Node} (h : Produced g nodes g')
    (h' : Produced g' nodes' g'') : Produced g (nodes ++ nodes') g'' where
  uuid           := h.uuid.trans h'.uuid
  numbered       := h.numbered.append h'.numbered h.uuid h'.uuid
  fits node hm   := (List.mem_append.mp hm).elim (h.fits node) (h'.fits node)

theorem Node.descendants_eq (node : Node) : node.descendants = Node.descendantsAll node.children := by
  cases node
  rfl

theorem getIotConnection_eq (node : Node) :
    getIotConnection node = getIotConnections node.children ++ (node.iotConnected.map (node.name, ·)).toList := by
  cases node
  rfl

section Returns

variable {draw : ℕ → ℕ} {word : ℕ → String} {g : Gen}

theorem returns_randint {a b : ℕ} (h : a ≤ b) :
    Returns (randint draw a b) g fun n g' => a ≤ n ∧ n ≤ b ∧ g'.uuid = g.uuid := by
  refine ⟨a + draw g.drawn % (b - a + 1), { g with drawn := g.drawn + 1 }, by simp [randint, h], by omega, ?_, rfl⟩
  have := Nat.mod_lt (draw g.drawn) (show 0 < b - a + 1 by omega)
  omega

theorem returns_choice {reductions : List ℕ} {f : ℕ → StateT Gen Option Node} {P : Node → Gen → Prop}
    (hne : reductions ≠ []) (h : ∀ diff ∈ reductions, ∀ g' : Gen, g'.uuid = g.uuid → Returns (f diff) g' P) :
    Returns (do
      let diffIndex ← randint draw 0 (reductions.length - 1)
      let diff ← reductions[diffIndex]?
      f diff) g P := by
  refine .bind (returns_randint (Nat.zero_le _)) ?_
  rintro i g' ⟨_, hi, hg⟩
  have hi : i < reductions.length := by
    have := List.length_pos_of_ne_nil hne
    omega
  refine .bind (.lift (List.getElem?_eq_getElem hi) (P := fun diff g'' => diff = reductions[i] ∧ g'' = g')
    ⟨rfl, rfl⟩) ?_
  rintro _ _ ⟨rfl, rfl⟩
  exact h _ (List.getElem_mem hi) _ hg

theorem returns_apply {modifier : Modifier} {rest : List Modifier} {dd : Node} {first : Bool}
    (h : Affords (modifier :: rest) dd.flavor) :
    Returns (modifier.apply draw dd first) g fun dd' g' => g'.uuid = g.uuid ∧ Modified first dd dd' ∧
      Affords rest dd'.flavor ∧ (first = true → (∃ n, modifier = .setIotConnected n) → dd'.iotConnected.isSome) := by
  obtain ⟨name, flavor, latency, rate, iotConnected, children⟩ := dd
  cases modifier
  case setCloud => exact .pure ⟨rfl, .refl, h, fun _ h => nomatch h⟩
  case setIotConnected dropOneIn =>
    cases first
    case true => exact .pure ⟨rfl, ⟨rfl, rfl, rfl, .inl rfl, fun _ => rfl⟩, h.2, fun _ _ => rfl⟩
    case false =>
      refine .bind (returns_randint h.1) ?_
      rintro r g' ⟨_, _, hg⟩
      apply Returns.pure
      split
      case isTrue => exact ⟨hg, ⟨rfl, rfl, rfl, .inl rfl, fun _ => rfl⟩, h.2, nofun⟩
      case isFalse => exact ⟨hg, .refl, h.2, nofun⟩
  case dropChildren dropOneIn =>
    cases first
    case true => exact .pure ⟨rfl, .refl, h.2, fun _ h => nomatch h⟩
    case false =>
      refine .bind (returns_randint h.1) ?_
      rintro r g' ⟨_, _, hg⟩
      apply Returns.pure
      split
      case isTrue => exact ⟨hg, ⟨rfl, rfl, rfl, .inr ⟨rfl, rfl⟩, id⟩, h.2, nofun⟩
      case isFalse => exact ⟨hg, .refl, h.2, nofun⟩
  case flavorRandomizerMem reductions =>
    refine returns_choice h.1 ?_
    intro diff hd g' hg
    have hp := (h.2 diff hd).positive
    rw [if_pos ⟨hp.mem.ne', hp.reservedMem.ne'⟩]
    exact .pure ⟨hg, ⟨rfl, rfl, rfl, .inl rfl, id⟩, h.2 diff hd, fun _ h => nomatch h⟩
  case flavorRandomizerCpu reductions =>
    refine returns_choice h.1 ?_
    intro diff hd g' hg
    have hp := (h.2 diff hd).positive
    rw [if_pos ⟨hp.core.ne', hp.reservedCore.ne'⟩]
    exact .pure ⟨hg, ⟨rfl, rfl, rfl, .inl rfl, id⟩, h.2 diff hd, fun _ h => nomatch h⟩

theorem returns_modifiers {modifiers : List Modifier} {dd : Node} {first : Bool} (h : Affords modifiers dd.flavor) :
    Returns (modifiers.foldlM (fun dd modifier => modifier.apply draw dd first) dd) g fun dd' g' =>
      g'.uuid = g.uuid ∧ Modified first dd dd' ∧ dd'.flavor.Positive ∧
        (first = true → (∃ n, .setIotConnected n ∈ modifiers) → dd'.iotConnected.isSome) := by
  induction modifiers generalizing dd g
  case nil => exact .pure ⟨rfl, .refl, h, fun _ h => by simp at h⟩
  case cons modifier rest hi =>
    rw [List.foldlM_cons]
    refine .bind (returns_apply h) ?_
    rintro dd₁ g₁ ⟨hg₁, hm₁, ha, hi₁⟩
    refine (hi ha).mono ?_
    rintro dd₂ g₂ ⟨hg₂, hm₂, hp, hi₂⟩
    refine ⟨hg₂.trans hg₁, hm₁.trans hm₂, hp, ?_⟩
    rintro hf ⟨n, hn⟩
    cases List.mem_cons.mp hn
    case inl he => exact hm₂.iot (hi₁ hf ⟨n, he.symm⟩)
    case inr hn => exact hi₂ hf ⟨n, hn⟩

variable (hw : ∀ i, ∃ l c, (word i).toList = l ++ [c] ∧ c.isDigit = false)
include hw

theorem returns_city {level : Level} (hl : level.Valid) {nextLvl : StateT Gen Option (List Node)} {below : Prop}
    (hn : ∀ g, Returns nextLvl g fun children g' => Produced g (Node.descendantsAll children) g' ∧
      (below → getIotConnections children ≠ [])) (depth : ℕ) (first : Bool) :
    Returns (city draw word level nextLvl depth first) g fun dd g' => Produced g (dd :: dd.descendants) g' ∧
      (first = true → level.Connects ∨ below → getIotConnection dd ≠ []) := by
  obtain ⟨hlat, hlat'⟩ := hl.latencies
  obtain ⟨hr₁, hr₂⟩ := hl.rates
  have hmin : 0 < min level.rates.1 level.rates.2 := lt_min hr₁ hr₂
  have hmax : 1 ≤ ⌈((max level.rates.1 level.rates.2 : ℕ) / (min level.rates.1 level.rates.2 : ℕ) : ℚ)⌉₊ := by
    rw [Nat.one_le_ceil_iff]
    exact div_pos (by exact_mod_cast lt_max_of_lt_left hr₁) (by exact_mod_cast hmin)
  refine .bind (P := fun uuid g₁ => uuid = g.uuid + 1 ∧ g₁.uuid = g.uuid + 1) ⟨_, _, rfl, rfl, rfl⟩ ?_
  rintro _ g₁ ⟨rfl, hg₁⟩
  refine .bind (P := fun name g₂ => name = word g₁.named ∧ g₂.uuid = g.uuid + 1) ⟨_, _, rfl, rfl, hg₁⟩ ?_
  rintro _ g₂ ⟨rfl, hg₂⟩
  refine .bind (returns_randint hlat') ?_
  rintro latency g₃ ⟨hlatency, _, hg₃⟩
  refine .bind (returns_randint hmax) ?_
  rintro factor g₄ ⟨hfactor, _, hg₄⟩
  refine .bind (hn g₄) ?_
  rintro children g₅ ⟨hp, hb⟩
  refine (returns_modifiers hl.affords).mono ?_
  rintro dd g₆ ⟨hg₆, hm, hf, hi⟩
  have hu : g₄.uuid = g.uuid + 1 := by omega
  have huuid := hp.uuid
  obtain ⟨l, c, hl', hc⟩ := hw g₁.named
  have hnumber : number dd.name = g.uuid + 1 := by
    rw [hm.name]
    exact number_append hl' hc _ _
  have hsub : Produced g₅ [] g₆ := ⟨hg₆.ge, .nil, fun _ h => nomatch h⟩
  constructor
  case left =>
    have hdd : Produced g [dd] g₄ := by
      refine ⟨by omega, .single (by omega) (by omega), ?_⟩
      intro node hm'
      cases List.mem_singleton.mp hm'
      refine ⟨hf, ?_, ?_⟩
      case refine_1 => exact hm.latency ▸ hlat.trans hlatency
      case refine_2 =>
        rw [hm.rate]
        refine ⟨?_, Rat.den_natCast _⟩
        exact Nat.cast_pos.mpr (Nat.mul_pos hmin hfactor)
    have hdesc : Produced g₄ dd.descendants g₆ := by
      rw [Node.descendants_eq]
      cases hm.children
      case inl he =>
        have hc := hp.append hsub
        rw [List.append_nil] at hc
        rw [he]
        exact hc
      case inr he =>
        rw [he.2]
        exact ⟨by omega, .nil, fun _ h => nomatch h⟩
    exact hdd.append hdesc
  case right =>
    intro hfirst hconn
    rw [getIotConnection_eq, Ne, List.append_eq_nil_iff, not_and_or]
    cases hconn
    case inl hconn =>
      obtain ⟨iot, he⟩ := Option.isSome_iff_exists.mp (hi hfirst hconn)
      exact .inr (by simp [he])
    case inr hbelow =>
      have he := hm.children.resolve_right fun h => by simp [hfirst] at h
      exact .inl (he ▸ hb hbelow)

omit hw in
theorem returns_cities {generate : Bool → StateT Gen Option Node} {connected : Prop}
    (h : ∀ g first, Returns (generate first) g fun dd g' => Produced g (dd :: dd.descendants) g' ∧
      (first = true → connected → getIotConnection dd ≠ [])) (n : ℕ) (first : Bool) :
    Returns (cities generate n first) g fun nodes g' => Produced g (Node.descendantsAll nodes) g' ∧ nodes.length = n ∧
      (0 < n → first = true → connected → getIotConnections nodes ≠ []) := by
  induction n generalizing g first
  case zero => exact .pure ⟨⟨le_rfl, .nil, fun _ h => nomatch h⟩, rfl, nofun⟩
  case succ n hi =>
    refine .bind (h g first) ?_
    rintro dd g₁ ⟨hp, hc⟩
    refine .bind (hi false) ?_
    rintro rest g₂ ⟨hp', hl, _⟩
    refine .pure ⟨hp.append hp', by simp [hl], ?_⟩
    intro _ hf hconn
    rw [getIotConnections, Ne, List.append_eq_nil_iff, not_and_or]
    exact .inl (hc hf hconn)

theorem returns_generateLevel {levels : List Level} (hv : ∀ level ∈ levels, level.Valid) (depth : ℕ) :
    Returns (generateLevel draw word levels depth) g fun nodes g' => Produced g (Node.descendantsAll nodes) g' ∧
      (levels ≠ [] → nodes ≠ []) ∧ ((∃ level ∈ levels, level.Connects) → getIotConnections nodes ≠ []) := by
  induction levels generalizing g depth
  case nil => exact .pure ⟨⟨le_rfl, .nil, fun _ h => nomatch h⟩, fun h => absurd rfl h, fun h => by simp at h⟩
  case cons level rest hi =>
    obtain ⟨hl, hv⟩ := List.forall_mem_cons.mp hv
    obtain ⟨hn, hn'⟩ := hl.nbNodes
    have hrest (g : Gen) : Returns (generateLevel draw word rest (depth + 1)) g fun nodes g' =>
        Produced g (Node.descendantsAll nodes) g' ∧ ((∃ level ∈ rest, level.Connects) → getIotConnections nodes ≠ []) :=
      (hi hv (depth + 1)).mono fun _ _ h => ⟨h.1, h.2.2⟩
    refine .bind (returns_randint hn') ?_
    rintro n g₁ ⟨hle, _, hg₁⟩
    refine (returns_cities (fun g => returns_city hw hl hrest depth) n true).mono ?_
    rintro nodes g₂ ⟨hp, hlen, hc⟩
    refine ⟨⟨hg₁ ▸ hp.uuid, hg₁ ▸ hp.numbered, hp.fits⟩, ?_, ?_⟩
    case refine_1 =>
      rintro _ rfl
      rw [List.length_nil] at hlen
      omega
    case refine_2 =>
      rintro ⟨level', hm, hlevel⟩
      apply hc (by omega) rfl
      cases List.mem_cons.mp hm
      case inl he => exact .inl (he ▸ hlevel)
      case inr hm => exact .inr ⟨level', hm, hlevel⟩

end Returns

-- What the experiments need of a network.
structure Usable (network : Node) : Prop where
  name      : network.name = "market"
  children  : network.children ≠ []
  names     : ("iot_emulation" :: network.names).Nodup
  fits      : ∀ node ∈ network.descendants, node.Fits
  connected : iotConnection network ≠ []

theorem affords_levels {sizeMultiplier : ℚ} :
    ∀ level ∈ levels sizeMultiplier, Affords level.modifiers level.flavor := by
  simp [levels, Affords, Flavor.positive_iff, Flavor.reduceMem, Flavor.reduceCpu, tier1Flavor, tier2Flavor, tier3Flavor,
    tier4Flavor]
  norm_num

theorem valid_levels {sizeMultiplier : ℚ} (h : 1 / 2 ≤ sizeMultiplier) :
    ∀ level ∈ levels sizeMultiplier, level.Valid := by
  have h₁ : 1 ≤ ⌊6 * sizeMultiplier⌋₊ := Nat.le_floor (by push_cast; linarith)
  have h₂ : 2 ≤ ⌊4 * sizeMultiplier⌋₊ := Nat.le_floor (by push_cast; linarith)
  have h₃ : 3 ≤ ⌊8 * sizeMultiplier⌋₊ := Nat.le_floor (by push_cast; linarith)
  have h₄ : 2 ≤ ⌊8 * sizeMultiplier⌋₊ := h₃.trans' (by norm_num)
  intro level hm
  have ha := affords_levels level hm
  simp only [levels, List.mem_cons, List.not_mem_nil, or_false] at hm
  rcases hm with rfl | rfl | rfl | rfl
  case inl => exact ⟨⟨le_rfl, h₁⟩, by norm_num, by norm_num, ha⟩
  case inr.inl => exact ⟨⟨by norm_num, h₂⟩, by norm_num, by norm_num, ha⟩
  case inr.inr.inl => exact ⟨⟨by norm_num, h₃⟩, by norm_num, by norm_num, ha⟩
  case inr.inr.inr => exact ⟨⟨by norm_num, h₄⟩, by norm_num, by norm_num, ha⟩

theorem connects_levels (sizeMultiplier : ℚ) : ∃ level ∈ levels sizeMultiplier, level.Connects := by
  simp [levels, Level.Connects]

section Fails

variable {draw : ℕ → ℕ} {word : ℕ → String}

theorem fails_generateLevel {level : Level} (h : level.nbNodes.2 < level.nbNodes.1) (rest : List Level) (depth : ℕ)
    (g : Gen) : generateLevel draw word (level :: rest) depth g = none := by
  apply Returns.fails
  intro n g' hn
  rw [randint, if_neg (by omega)] at hn
  cases hn

theorem fails_city {level : Level} {nextLvl : StateT Gen Option (List Node)} (h : ∀ g, nextLvl g = none) (depth : ℕ)
    (first : Bool) (g : Gen) : city draw word level nextLvl depth first g = none := by
  apply Returns.fails
  intro _ _ _
  apply Returns.fails
  intro _ _ _
  apply Returns.fails
  intro _ _ _
  apply Returns.fails
  intro _ g' _
  apply Returns.fails
  intro _ _ hc
  cases (h g').symm.trans hc

-- The first city needs the level below.
theorem fails_networkGeneration {sizeMultiplier : ℚ} (h : sizeMultiplier < 1 / 2) (g : Gen) :
    networkGeneration draw word sizeMultiplier g = none := by
  have h₂ : ⌊4 * sizeMultiplier⌋₊ < 2 := by
    rw [Nat.floor_lt' (by norm_num)]
    push_cast
    linarith
  have hbelow {depth : ℕ} (g : Gen) : generateLevel draw word (levels sizeMultiplier).tail depth g = none :=
    fails_generateLevel h₂ _ depth g
  apply Returns.fails
  intro children g' hc
  have hn : generateLevel draw word (levels sizeMultiplier) 1 g = none := by
    apply Returns.fails
    intro n g₁ hn
    cases n
    case zero =>
      simp only [randint, Option.ite_none_right_eq_some, Option.some.injEq, Prod.mk.injEq] at hn
      omega
    case succ n =>
      rw [cities]
      apply Returns.fails
      intro dd g₂ hdd
      cases (fails_city hbelow _ true g₁).symm.trans hdd
  cases hn.symm.trans hc

end Fails

-- Whatever is drawn, no assertion fails and all experiments can be run, unless the range of some level is empty.
theorem networkGeneration_usable {draw : ℕ → ℕ} {word : ℕ → String}
    (hw : ∀ i, ∃ l c, (word i).toList = l ++ [c] ∧ c.isDigit = false) (sizeMultiplier : ℚ) (g : Gen) :
    ((networkGeneration draw word sizeMultiplier g).isSome ↔ 1 / 2 ≤ sizeMultiplier) ∧
      ∀ network g', networkGeneration draw word sizeMultiplier g = some (network, g') → Usable network := by
  by_cases h : 1 / 2 ≤ sizeMultiplier
  case neg =>
    rw [fails_networkGeneration (not_le.mp h)]
    exact ⟨iff_of_false (by simp) h, fun _ _ h => nomatch h⟩
  case pos =>
    have hr : Returns (networkGeneration draw word sizeMultiplier) g fun network _ => Usable network := by
      refine .bind (returns_generateLevel hw (valid_levels h) 1) ?_
      rintro children g' ⟨hp, hne, hc⟩
      apply Returns.pure
      have hnotin {name : String} (hn : number name = 0) : name ∉ (Node.descendantsAll children).map Node.name := by
        intro hm
        obtain ⟨node, hnode, rfl⟩ := List.mem_map.mp hm
        have := (hp.numbered.range node hnode).1
        omega
      constructor
      case name => rfl
      case children => exact hne (by simp [levels])
      case fits => exact hp.fits
      case connected => exact hc (connects_levels sizeMultiplier)
      case names =>
        have hmarket : number "market" = 0 := by decide +kernel
        have hiot : number "iot_emulation" = 0 := by decide +kernel
        refine List.nodup_cons.mpr ⟨?_, List.nodup_cons.mpr ⟨hnotin hmarket, hp.numbered.nodup_names⟩⟩
        intro hm
        cases List.mem_cons.mp hm
        case inl he => exact absurd he (by decide : "iot_emulation" ≠ "market")
        case inr hm => exact hnotin hiot hm
    refine ⟨iff_of_true ?_ h, ?_⟩
    case refine_1 =>
      obtain ⟨network, g', hg, _⟩ := hr
      exact Option.isSome_of_mem hg
    case refine_2 => exact fun network g' hg => hr.of_some hg

theorem networkGeneration_usable_of_word : (networkGeneration id (fun _ => "word") 1 ⟨0, 0, 0⟩).isSome ∧
    ¬ (networkGeneration id (fun _ => "word") (1 / 4) ⟨0, 0, 0⟩).isSome := by
  have hw : ∀ _ : ℕ, ∃ l c, "word".toList = l ++ [c] ∧ c.isDigit = false := fun _ => ⟨['w', 'o', 'r'], 'd', rfl, rfl⟩
  constructor
  case left => exact (networkGeneration_usable hw 1 _).1.mpr (by norm_num)
  case right => exact fun h => absurd ((networkGeneration_usable hw (1 / 4) _).1.mp h) (by norm_num)

end Testbed
