import FogMarket.Library.Writes
import FogMarket.Testbed.Net

open Testbed

-- The hosts hold back the packets which they send.
namespace Emul

structure Host where
  aliasName : String
  devices   : List String
  addresses : List String
  deriving DecidableEq

structure HTBConstraint where
  device : String
  delay  : ℕ
  target : String
  rate   : ℚ
  deriving DecidableEq

namespace HTBConstraint

-- A rate which is not an integer is refused.
def new (device target : String) (delay : ℕ) (rate : ℚ) : Option HTBConstraint :=
  if rate.den = 1 then some { device := device, delay := delay, target := target, rate := rate } else none

def Equal (c₁ c₂ : HTBConstraint) : Prop :=
  c₁.device = c₂.device ∧ c₁.target = c₂.target

instance (c₁ c₂ : HTBConstraint) : Decidable (c₁.Equal c₂) :=
  inferInstanceAs (Decidable (_ ∧ _))

end HTBConstraint

-- There is at most one constraint for a device and a target.
structure HTBSource where
  host        : Host
  constraints : Finset HTBConstraint
  single      : ∀ c ∈ constraints, ∀ c' ∈ constraints, c.Equal c' → c = c'

namespace HTBSource

def new (host : Host) : HTBSource where
  host        := host
  constraints := ∅
  single      := by simp

-- The constraints which match are replaced.
def replace (s : HTBSource) (constraint : HTBConstraint) : HTBSource where
  host        := s.host
  constraints := insert constraint (s.constraints.filter fun sc => ¬ constraint.Equal sc)
  single      := by
    intro c hc c' hc' he
    rw [Finset.mem_insert, Finset.mem_filter] at hc hc'
    cases hc
    case inl hc =>
      subst hc
      exact hc'.elim Eq.symm fun hc' => absurd he hc'.2
    case inr hc =>
      cases hc'
      case inl hc' => exact absurd ⟨(hc' ▸ he.1).symm, (hc' ▸ he.2).symm⟩ hc.2
      case inr hc' => exact s.single c hc.1 c' hc'.1 he

def addConstraints (s : HTBSource) (constraints : List HTBConstraint) : HTBSource :=
  constraints.foldl replace s

def addConstraint (s : HTBSource) (device target : String) (delay : ℕ) (rate : ℚ) : Option HTBSource :=
  (HTBConstraint.new device target delay rate).map fun constraint => s.addConstraints [constraint]

end HTBSource

structure NetemBPF where
  sources : Dict Host HTBSource

namespace NetemBPF

def new : NetemBPF where
  sources := .empty

def setdefault (net : NetemBPF) (host : Host) : NetemBPF where
  sources := net.sources.modify host (·.getD (.new host))

def addConstraint (net : NetemBPF) (host : Host) (device target : String) (delay : ℕ) (rate : ℚ) : Option NetemBPF := do
  let source ← net.sources.get host
  let source ← source.addConstraint device target delay rate
  return { sources := net.sources.set host source }

-- The loops over the sources, their devices, the destinations and their addresses.
def addDirected (net : NetemBPF) (src dest : List Host) (delay : ℕ) (rate : ℚ) : Option NetemBPF :=
  src.foldlM (fun net srcHost =>
    srcHost.devices.foldlM (fun net sdevice =>
      dest.foldlM (fun net destHost =>
        destHost.addresses.foldlM (fun net daddr => net.addConstraint srcHost sdevice daddr delay rate) net) net)
      (net.setdefault srcHost)) net

def addConstraints (net : NetemBPF) (src dest : List Host) (delay : ℕ) (rate : ℚ) (symmetric : Bool) :
    Option NetemBPF := do
  let net ← net.addDirected src dest delay rate
  if symmetric then
    net.addDirected dest src delay rate
  else
    return net

-- A host holds back packets by a constraint.
def Has (net : NetemBPF) (host : Host) (c : HTBConstraint) : Prop :=
  ∃ s, net.sources.get host = some s ∧ c ∈ s.constraints

end NetemBPF

def addNetemCb (roles : Dict String (List Host)) (net : NetemBPF) (c : Constraint) : Option NetemBPF := do
  let src ← roles.get c.source
  let dest ← roles.get c.destination
  net.addConstraints src dest c.delay c.rate true

-- The command `network`, by the calls of its callback.
def network (roles : Dict String (List Host)) (calls : List Constraint) : Option NetemBPF :=
  calls.foldlM (addNetemCb roles) .new

def hosts (roles : Dict String (List Host)) (name : String) : List Host :=
  (roles.get name).getD []

-- A call restricts both directions.
def Between (c : Constraint) (u v : String) : Prop :=
  c.source = u ∧ c.destination = v ∨ c.source = v ∧ c.destination = u

-- The packets from one role to another are held back in one way only.
def Delays (net : NetemBPF) (roles : Dict String (List Host)) (u v : String) (delay : ℕ) (rate : ℚ) : Prop :=
  ∀ h ∈ hosts roles u, ∀ g ∈ hosts roles v, ∀ device ∈ h.devices, ∀ target ∈ g.addresses, ∀ delay' rate',
    net.Has h { device := device, delay := delay', target := target, rate := rate' } ↔ delay' = delay ∧ rate' = rate

-- No host and no address belongs to two roles.
structure Separate (roles : Dict String (List Host)) (names : List String) : Prop where
  host    : ∀ u ∈ names, ∀ v ∈ names, ∀ h ∈ hosts roles u, h ∈ hosts roles v → u = v
  address : ∀ u ∈ names, ∀ v ∈ names, ∀ h ∈ hosts roles u, ∀ g ∈ hosts roles v,
    ∀ a ∈ h.addresses, a ∈ g.addresses → u = v

-- A table with an entry for each host, each of its devices and each target.
abbrev Table :=
  Host × String × String → Option (ℕ × ℚ)

def Represents (net : NetemBPF) (table : Table) : Prop :=
  ∀ host c, net.Has host c ↔ table (host, c.device, c.target) = some (c.delay, c.rate)

-- What is written for a device of a host.
def towards (dest : List Host) (delay : ℕ) (rate : ℚ) (srcHost : Host) (sdevice : String) :
    List ((Host × String × String) × ℕ × ℚ) :=
  dest.flatMap fun destHost => destHost.addresses.flatMap fun daddr => [((srcHost, sdevice, daddr), delay, rate)]

-- What is written in one direction.
def directed (src dest : List Host) (delay : ℕ) (rate : ℚ) : List ((Host × String × String) × ℕ × ℚ) :=
  src.flatMap fun srcHost => srcHost.devices.flatMap (towards dest delay rate srcHost)

def written (roles : Dict String (List Host)) (c : Constraint) : List ((Host × String × String) × ℕ × ℚ) :=
  let src := hosts roles c.source
  let dest := hosts roles c.destination
  directed src dest c.delay c.rate ++ directed dest src c.delay c.rate

variable {net : NetemBPF} {table : Table} {host : Host} {device target : String} {delay : ℕ} {rate : ℚ}
variable {src dest : List Host} {roles : Dict String (List Host)} {calls : List Constraint} {c : Constraint}

theorem represents_new : Represents .new fun _ => none := by
  intro host c
  simp [NetemBPF.Has, NetemBPF.new, Dict.empty, Dict.get]

theorem represents_setdefault (h : Represents net table) : Represents (net.setdefault host) table := by
  intro g c
  rw [← h, NetemBPF.Has, NetemBPF.Has, NetemBPF.setdefault, Dict.get_modify]
  by_cases hg : g = host
  case neg => rw [if_neg hg]
  case pos =>
    subst hg
    rw [if_pos rfl]
    cases net.sources.get g <;> simp [HTBSource.new]

-- The last constraint for a device and a target counts.
theorem represents_addConstraint (hr : rate.den = 1) (h : Represents net table) (hs : (net.sources.get host).isSome) :
    ∃ net', net.addConstraint host device target delay rate = some net' ∧ (net'.sources.get host).isSome ∧
      Represents net' (Writes.after table [((host, device, target), delay, rate)]) := by
  obtain ⟨s, hs⟩ := Option.isSome_iff_exists.mp hs
  refine ⟨_, by
    simp only [NetemBPF.addConstraint, HTBSource.addConstraint, HTBConstraint.new, hs, if_pos hr]
    rfl, ?_, ?_⟩
  case refine_1 => simp
  case refine_2 =>
    intro g c
    rw [NetemBPF.Has, Dict.get_set, Writes.after, List.foldl_cons, List.foldl_nil, Writes.write]
    by_cases hg : g = host
    case neg =>
      rw [if_neg hg, Function.update_of_ne (fun he => hg (congrArg Prod.fst he)), ← h]
      rfl
    case pos =>
      subst hg
      have hold : c ∈ s.constraints ↔ table (g, c.device, c.target) = some (c.delay, c.rate) := by
        rw [← h]
        simp [NetemBPF.Has, hs]
      have hm :
          c ∈ (s.addConstraints [{ device := device, delay := delay, target := target, rate := rate }]).constraints ↔
          c = { device := device, delay := delay, target := target, rate := rate } ∨
            c ∈ s.constraints ∧ ¬ (device = c.device ∧ target = c.target) := by
        simp [HTBSource.addConstraints, HTBSource.replace, HTBConstraint.Equal]
      rw [if_pos rfl]
      by_cases he : device = c.device ∧ target = c.target
      case pos =>
        obtain ⟨rfl, rfl⟩ := he
        rw [Function.update_self]
        simp only [Option.some.injEq, exists_eq_left', hm, not_true_eq_false, and_self, and_false, or_false,
          Prod.mk.injEq]
        obtain ⟨device, delay', target, rate'⟩ := c
        simp [eq_comm]
      case neg =>
        have hne : (g, c.device, c.target) ≠ (g, device, target) := by
          rintro hk
          simp only [Prod.mk.injEq, true_and] at hk
          exact he ⟨hk.1.symm, hk.2.symm⟩
        rw [Function.update_of_ne hne, ← hold]
        simp only [Option.some.injEq, exists_eq_left', hm, he, not_false_eq_true, and_true, or_iff_right_iff_imp]
        rintro rfl
        exact absurd ⟨rfl, rfl⟩ he

theorem represents_towards (device : String) (hr : rate.den = 1)
    (h : (net.sources.get host).isSome ∧ Represents net table) :
    ∃ net', dest.foldlM (fun net destHost =>
        destHost.addresses.foldlM (fun net daddr => net.addConstraint host device daddr delay rate) net) net =
        some net' ∧
      (net'.sources.get host).isSome ∧ Represents net' (Writes.after table (towards dest delay rate host device)) := by
  refine Writes.exists_foldlM (R := fun net table => (net.sources.get host).isSome ∧ Represents net table) h ?_
  intro destHost _ net table h
  refine Writes.exists_foldlM (R := fun net table => (net.sources.get host).isSome ∧ Represents net table) h ?_
  intro daddr _ net table h
  exact represents_addConstraint hr h.2 h.1

theorem represents_addDirected (src dest : List Host) (delay : ℕ) (hr : rate.den = 1) (h : Represents net table) :
    ∃ net', net.addDirected src dest delay rate = some net' ∧
      Represents net' (Writes.after table (directed src dest delay rate)) := by
  refine Writes.exists_foldlM h ?_
  intro srcHost _ net table h
  have hs : ((net.setdefault srcHost).sources.get srcHost).isSome := by simp [NetemBPF.setdefault, Dict.get_modify]
  obtain ⟨net', hnet, -, h'⟩ := Writes.exists_foldlM
    (R := fun net table => (net.sources.get srcHost).isSome ∧ Represents net table)
    ⟨hs, represents_setdefault h⟩ fun sdevice _ net table h => represents_towards sdevice hr h
  exact ⟨net', hnet, h'⟩

theorem represents_addNetemCb (hr : c.rate.den = 1) (hs : (roles.get c.source).isSome)
    (hd : (roles.get c.destination).isSome) (h : Represents net table) :
    ∃ net', addNetemCb roles net c = some net' ∧ Represents net' (Writes.after table (written roles c)) := by
  obtain ⟨src, hs⟩ := Option.isSome_iff_exists.mp hs
  obtain ⟨dest, hd⟩ := Option.isSome_iff_exists.mp hd
  obtain ⟨net₁, hnet₁, h₁⟩ := represents_addDirected src dest c.delay hr h
  obtain ⟨net₂, hnet₂, h₂⟩ := represents_addDirected dest src c.delay hr h₁
  refine ⟨net₂, ?_, ?_⟩
  case refine_1 => simp [addNetemCb, NetemBPF.addConstraints, hs, hd, hnet₁, hnet₂]
  case refine_2 => simpa [written, hosts, hs, hd, Writes.after_append] using h₂

theorem represents_network
    (h : ∀ c ∈ calls, c.rate.den = 1 ∧ (roles.get c.source).isSome ∧ (roles.get c.destination).isSome) :
    ∃ net, network roles calls = some net ∧
      Represents net (Writes.after (fun _ => none) (calls.flatMap (written roles))) := by
  refine Writes.exists_foldlM represents_new ?_
  intro c hc net table hr
  obtain ⟨hrate, hs, hd⟩ := h c hc
  exact represents_addNetemCb hrate hs hd hr

theorem mem_directed {w : (Host × String × String) × ℕ × ℚ} : w ∈ directed src dest delay rate ↔
    ∃ h ∈ src, ∃ device ∈ h.devices, ∃ g ∈ dest, ∃ target ∈ g.addresses, w = ((h, device, target), delay, rate) := by
  simp [directed, towards]

section Delays

variable {names : List String} {u v : String} (hsep : Separate roles names) (hu : u ∈ names) (hv : v ∈ names)
variable (hcalls : ∀ c ∈ calls, c.source ∈ names ∧ c.destination ∈ names)
include hsep hu hv hcalls

-- An entry for two roles is written by a call for these roles.
theorem between_of_written {h g : Host} {w : (Host × String × String) × ℕ × ℚ} (hh : h ∈ hosts roles u)
    (hg : g ∈ hosts roles v) (ht : target ∈ g.addresses) (hc : c ∈ calls) (hm : w ∈ written roles c)
    (hk : w.1 = (h, device, target)) : Between c u v ∧ w.2 = (c.delay, c.rate) := by
  have hnames := hcalls c hc
  have H {u' v' : String} (hu' : u' ∈ names) (hv' : v' ∈ names)
      (hm : w ∈ directed (hosts roles u') (hosts roles v') c.delay c.rate) :
      u' = u ∧ v' = v ∧ w.2 = (c.delay, c.rate) := by
    obtain ⟨h', hh', device', _, g', hg', target', ht', rfl⟩ := mem_directed.mp hm
    cases hk
    exact ⟨hsep.host u' hu' u hu h hh' hh, hsep.address v' hv' v hv g' hg' g hg target ht' ht, rfl⟩
  cases List.mem_append.mp hm
  case inl hm =>
    obtain ⟨hs, hd, hw⟩ := H hnames.1 hnames.2 hm
    exact ⟨.inl ⟨hs, hd⟩, hw⟩
  case inr hm =>
    obtain ⟨hd, hs, hw⟩ := H hnames.2 hnames.1 hm
    exact ⟨.inr ⟨hs, hd⟩, hw⟩

-- If all calls for two roles agree, then they hold.
theorem delays_of_calls (hr : Represents net (Writes.after (fun _ => none) (calls.flatMap (written roles))))
    (he : ∃ c ∈ calls, Between c u v) (ha : ∀ c ∈ calls, Between c u v → c.delay = delay ∧ c.rate = rate) :
    Delays net roles u v delay rate := by
  intro h hh g hg device hdevice target htarget delay' rate'
  have hw : Writes.after (fun _ => none) (calls.flatMap (written roles)) (h, device, target) = some (delay, rate) := by
    apply Writes.after_eq
    case hm =>
      obtain ⟨c, hc, hb⟩ := he
      refine ⟨((h, device, target), c.delay, c.rate), List.mem_flatMap.mpr ⟨c, hc, ?_⟩, rfl⟩
      rw [written, List.mem_append]
      rcases hb with ⟨rfl, rfl⟩ | ⟨rfl, rfl⟩
      case inl => exact .inl (mem_directed.mpr ⟨h, hh, device, hdevice, g, hg, target, htarget, rfl⟩)
      case inr => exact .inr (mem_directed.mpr ⟨h, hh, device, hdevice, g, hg, target, htarget, rfl⟩)
    case h =>
      intro w hw hk
      obtain ⟨c, hc, hm⟩ := List.mem_flatMap.mp hw
      obtain ⟨hb, hw⟩ := between_of_written hsep hu hv hcalls hh hg htarget hc hm hk
      obtain ⟨hd, hr⟩ := ha c hc hb
      rw [hw, hd, hr]
  rw [hr, hw]
  simp [eq_comm]

end Delays

end Emul
