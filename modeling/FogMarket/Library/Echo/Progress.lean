import Mathlib.Algebra.BigOperators.Group.Finset.Basic
import FogMarket.Library.Echo.Complete

open Transition

namespace Echo

variable {ν α β : Type*} {G : SimpleGraph ν} {start : ν} {s s' : State ν α β} {t u : Task ν α β}
variable {a : Act ν α β} {as : List (Act ν α β)} {neighbors : ν → Finset ν} {content : α}
variable {forward : ν → ν → α → Option α} {bid : ν → α → Option β}

-- Without faults, a request is passed on as `forward` has it, and the nodes contribute what `bid` says.
def Follows (forward : ν → ν → α → Option α) (bid : ν → α → Option β) (_ : State ν α β) : Act ν α β → Prop
  | .ask t w content => forward t.node w t.content = some content
  | .skip t w        => forward t.node w t.content = none
  | .finish t b      => b = bid t.node t.content
  | .loseRequest _ | .loseAnswer _ | .giveUp .. | .abort _ => False
  | .receive _ | .begin _ | .reply _ | .deliver ..         => True

theorem not_fault_of_follows (h : Follows forward bid s a) : ¬ a.Fault := by
  cases a <;> simp_all [Follows, Act.Fault]

variable [DecidableEq ν] [DecidableEq α] [DecidableEq β]

-- The runs from the first request on.
abbrev Runs (neighbors : ν → Finset ν) (ok : State ν α β → Act ν α β → Prop) (start : ν) (content : α) :=
  Run (State.step neighbors) ok (.start start content)

theorem complete_run {ok : State ν α β → Act ν α β → Prop} (hG : G.IsAcyclic)
    (hn : ∀ v w, w ∈ neighbors v ↔ G.Adj v w) (hok : ∀ s a, ok s a → ¬ a.Fault)
    (r : Runs neighbors ok start content as s) : Once G start s ∧ Complete G start s := by
  refine r.invariant (I := fun s => Once G start s ∧ Complete G start s) ⟨once_start, complete_start⟩ fun h ho e => ?_
  exact ⟨h.1.step hG hn e, h.2.step h.1 (hok _ _ ho) e⟩

omit [DecidableEq ν] [DecidableEq α] [DecidableEq β] in
theorem Once.nothing_left (o : Once G start s) (h : Waits G start s) (hr : s.result ≠ none) :
    s.requests = 0 ∧ s.tasks = 0 ∧ s.answers = 0 := by
  have hq := o.quiet h hr
  refine ⟨?_, ?_, ?_⟩ <;> apply Multiset.eq_zero_of_forall_notMem
  case refine_1 => exact fun r hm => by simpa [hq] using mem_active_request hm
  case refine_2 => exact fun t hm => by simpa [hq] using mem_active_task hm
  case refine_3 => exact fun a hm => by simpa [hq] using mem_active_answer hm

omit [DecidableEq ν] [DecidableEq α] [DecidableEq β] in
-- Without faults, the result consists of all contributions, and everyone who has been asked has made one.
theorem result_eq {m : Multiset β} (o : Once G start s) (h : Complete G start s) (hr : s.result = some m) :
    m = s.contributed ∧ s.made.map Prod.fst = (s.sent.map Request.node : List ν) := by
  obtain ⟨hrequests, htasks, hanswers⟩ := o.nothing_left h.waits (by simp [hr])
  constructor
  case left  => simpa [State.found, htasks, hanswers, hr] using h.found
  case right => simpa [State.pending, hrequests, htasks] using h.pending

omit [DecidableEq α] [DecidableEq β] in
-- Of the tasks which wait for others, there is one which waits for an answer that is there.
theorem exists_not_waiting (o : Once G start s) (h : Waits G start s) (hr : s.requests = 0) (ha : s.answers = 0)
    (ht : t ∈ s.tasks) : ∃ t ∈ s.tasks, t.waiting = ∅ := by
  by_contra hall
  simp only [not_exists, not_and] at hall
  -- Every task waits for a node which has been asked later.
  have hnext {t} (ht : t ∈ s.tasks) : ∃ u ∈ s.tasks, u.node ≠ t.node ∧ u.origin = t.node := by
    obtain ⟨w, hw⟩ := Finset.nonempty_iff_ne_empty.mpr (hall t ht)
    obtain ⟨hadj, hm⟩ := h.waiting _ (Multiset.mem_map_of_mem _ ht) w hw
    simp only [State.active, hr, ha, Multiset.map_zero, zero_add, add_zero, Multiset.mem_map] at hm
    obtain ⟨u, ht', he⟩ := hm
    obtain ⟨rfl, ho⟩ := Prod.mk.inj he
    exact ⟨u, ht', hadj.ne.symm, ho⟩
  suffices H : ∀ rs, Spread G start rs → rs ⊆ s.sent → ∃ t ∈ s.tasks, t.node ∉ rs.map Request.node by
    obtain ⟨t, ht, hm⟩ := H s.sent o.spread (List.Subset.refl _)
    obtain ⟨r, hr, hn, -⟩ := o.exists_sent ht
    exact hm (List.mem_map.mpr ⟨r, hr, hn⟩)
  intro rs hs
  induction hs
  case first c =>
    intro _
    by_cases hn : t.node = start
    case neg => exact ⟨t, ht, by simpa [Request.first] using hn⟩
    case pos =>
      obtain ⟨u, ht', hne, -⟩ := hnext ht
      exact ⟨u, ht', by simpa [Request.first, hn] using hne⟩
  case ask rs r hs ho hnew hadj hi =>
    intro hsub
    have hsub := List.cons_subset.mp hsub
    obtain ⟨t, ht, hm⟩ := hi hsub.2
    by_cases hn : t.node = r.node
    case neg => exact ⟨t, ht, by simpa [hn] using hm⟩
    case pos =>
      obtain ⟨u, ht', hne, ho'⟩ := hnext ht
      refine ⟨u, ht', ?_⟩
      rw [List.map_cons, List.mem_cons, not_or]
      refine ⟨hn ▸ hne, fun hm => hnew ?_⟩
      obtain ⟨q, hq, hqn⟩ := List.mem_map.mp hm
      obtain ⟨q', hq', hqn', hqo'⟩ := o.exists_sent ht'
      cases o.spread.eq_of_node (hsub.2 hq) hq' (hqn.trans hqn'.symm)
      exact (hqo'.trans (ho'.trans hn)) ▸ hs.origin_mem hq

-- As long as there is no result, something can be done.
theorem exists_step (o : Once G start s) (h : Waits G start s) (hr : s.result = none) (forward : ν → ν → α → Option α)
    (bid : ν → α → Option β) : ∃ a, Follows forward bid s a ∧ (s.step neighbors a).isSome = true := by
  by_cases hreq : s.requests = 0
  case neg =>
    obtain ⟨r, hm⟩ := Multiset.exists_mem_of_ne_zero hreq
    exact ⟨.receive r, trivial, by simp [State.step, hm]⟩
  by_cases hans : s.answers = 0
  case neg =>
    obtain ⟨a, hm⟩ := Multiset.exists_mem_of_ne_zero hans
    cases h.awaited _ (mem_active_answer hm)
    case inl hs =>
      -- The first node does not send an answer.
      obtain ⟨r, hr, he⟩ := o.exists_request (mem_active_answer hm)
      obtain ⟨hn, ho⟩ := Prod.mk.inj he
      refine absurd ?_ (h.answers a hm)
      calc a.origin = r.origin := ho.symm
        _ = start              := o.spread.origin_of_start hr (hn.trans hs)
        _ = a.node             := hs.symm
    case inr hw =>
      obtain ⟨ws, hw, ha⟩ := hw
      obtain ⟨t, ht, he⟩ := Multiset.mem_map.mp hw
      obtain ⟨hn, rfl⟩ := Prod.mk.inj he
      exact ⟨.deliver a t, trivial, by simp [State.step, hm, ht, hn, ha]⟩
  have hstart := h.result.mp hr
  simp only [State.active, hreq, hans, Multiset.map_zero, zero_add, add_zero, Multiset.mem_map] at hstart
  obtain ⟨t, ht, -⟩ := hstart
  obtain ⟨t, ht, hw⟩ := exists_not_waiting o h hreq hans ht
  by_cases hrest : t.rest = ∅
  case neg =>
    obtain ⟨w, hm⟩ := Finset.nonempty_iff_ne_empty.mpr hrest
    cases hf : forward t.node w t.content
    case none   => exact ⟨.skip t w, hf, by simp [State.step, ht, hm]⟩
    case some c => exact ⟨.ask t w c, hf, by simp [State.step, ht, hm]⟩
  cases ho : t.own
  case idle    => exact ⟨.begin t, trivial, by simp [State.step, ht, ho]⟩
  case running => exact ⟨.finish t (bid t.node t.content), rfl, by simp [State.step, ht, ho]⟩
  case ended   => exact ⟨.reply t, trivial, by simp [State.step, ht, Task.Ready, hw, hrest, ho]⟩

section Length

-- The steps which a request and what follows from it at its node can take.
def cost (neighbors : ν → Finset ν) (v : ν) : ℕ :=
  2 * (neighbors v).card + 5

def Own.cost : Own → ℕ
  | idle    => 2
  | running => 1
  | ended   => 0

def Task.cost (t : Task ν α β) : ℕ :=
  2 * t.rest.card + t.waiting.card + t.own.cost + 2

variable (neighbors) (nodes : Finset ν)

-- What is left to be done by nodes which have not been asked, for requests, for tasks and for answers.
def State.cost (s : State ν α β) : ℕ :=
  ∑ v ∈ nodes with v ∉ s.sent.map Request.node, Echo.cost neighbors v +
    (s.requests.map fun r => Echo.cost neighbors r.node).sum + (s.tasks.map Task.cost).sum + s.answers.card

variable {neighbors nodes}

theorem cost_setTask (ht : t ∈ s.tasks) (h : u.cost < t.cost) :
    (s.setTask t u).cost neighbors nodes < s.cost neighbors nodes := by
  obtain ⟨T, hT⟩ := Multiset.exists_cons_of_mem ht
  simp only [State.cost, State.setTask, hT, Multiset.erase_cons_head, Multiset.map_cons, Multiset.sum_cons]
  omega

theorem cost_ask {w : ν} {c : α} (o : Once G start (({ s.setTask t (t.ask w) with
      sent     := t.request w c :: s.sent
      requests := t.request w c ::ₘ s.requests } : State ν α β))) (ht : t ∈ s.tasks) (hw : w ∈ t.rest)
    (hm : w ∈ nodes) : ({ s.setTask t (t.ask w) with
      sent     := t.request w c :: s.sent
      requests := t.request w c ::ₘ s.requests } : State ν α β).cost neighbors nodes < s.cost neighbors nodes := by
  have hnew : w ∉ s.sent.map Request.node := (List.nodup_cons.mp o.spread.nodup).1
  have hnodes : nodes.filter (· ∉ s.sent.map Request.node) =
      insert w (nodes.filter (· ∉ (t.request w c :: s.sent).map Request.node)) := by
    ext v
    by_cases hv : v = w
    case pos => simp_all [Task.request]
    case neg => simp [Task.request, hv]
  have hcost : (t.ask w).cost < t.cost := by
    have hr := Finset.card_erase_add_one hw
    have hi := Finset.card_insert_le w t.waiting
    simp only [Task.cost, Task.ask]
    omega
  obtain ⟨T, hT⟩ := Multiset.exists_cons_of_mem ht
  simp only [State.cost, hnodes, hT, State.setTask, Multiset.erase_cons_head, Multiset.map_cons, Multiset.sum_cons]
  rw [Finset.sum_insert (by simp [Task.request])]
  simp only [Task.request]
  omega

theorem cost_step (hG : G.IsAcyclic) (hn : ∀ v w, w ∈ neighbors v ↔ G.Adj v w) (hm : ∀ v, neighbors v ⊆ nodes)
    (o : Once G start s) (e : s.step neighbors a = some s') : s'.cost neighbors nodes < s.cost neighbors nodes := by
  have o' := o.step hG hn e
  cases a <;> simp only [State.step] at e <;> split at e <;> cases e
  case ask t w c ht => exact cost_ask o' ht.1 ht.2 (hm _ ((hn _ _).mpr (o.rest t ht.1 w ht.2).1))
  case skip t w ht =>
    refine cost_setTask ht.1 ?_
    have := Finset.card_erase_add_one ht.2
    simp only [Task.cost, Task.skip]
    omega
  case giveUp t w ht =>
    refine cost_setTask ht.1 ?_
    have := Finset.card_erase_add_one ht.2
    simp only [Task.cost, Task.giveUp]
    omega
  case begin t ht => exact cost_setTask ht.1 (by simp [Task.cost, ht.2, Own.cost])
  case finish t b ht =>
    exact cost_setTask (u := t.finish b) ht.1 (by simp [Task.cost, Task.finish, ht.2, Own.cost])
  case receive r hr =>
    obtain ⟨R, hR⟩ := Multiset.exists_cons_of_mem hr
    have := Finset.card_erase_le (s := neighbors r.node) (a := r.origin)
    simp only [State.cost, hR, Multiset.erase_cons_head, Multiset.map_cons, Multiset.sum_cons, Task.cost,
      Request.task, Own.cost, Finset.card_empty, cost]
    omega
  case loseRequest r hr =>
    obtain ⟨R, hR⟩ := Multiset.exists_cons_of_mem hr
    simp only [State.cost, hR, Multiset.erase_cons_head, Multiset.map_cons, Multiset.sum_cons, cost]
    omega
  case loseAnswer a ha =>
    obtain ⟨A, hA⟩ := Multiset.exists_cons_of_mem ha
    simp only [State.cost, hA, Multiset.erase_cons_head, Multiset.card_cons]
    omega
  case abort t ht =>
    obtain ⟨T, hT⟩ := Multiset.exists_cons_of_mem ht.1
    simp only [State.cost, hT, Multiset.erase_cons_head, Multiset.map_cons, Multiset.sum_cons, Task.cost]
    omega
  case deliver a t hd =>
    obtain ⟨A, hA⟩ := Multiset.exists_cons_of_mem hd.1
    obtain ⟨T, hT⟩ := Multiset.exists_cons_of_mem hd.2.1
    have := Finset.card_erase_le (s := t.waiting) (a := a.node)
    simp only [State.cost, State.setTask, hA, hT, Multiset.erase_cons_head, Multiset.map_cons, Multiset.sum_cons,
      Multiset.card_cons, Task.cost, Task.collect]
    omega
  case reply t ht =>
    obtain ⟨T, hT⟩ := Multiset.exists_cons_of_mem ht.1
    split <;>
    · simp only [State.cost, hT, Multiset.erase_cons_head, Multiset.map_cons, Multiset.sum_cons,
        Multiset.card_cons, Task.cost]
      omega

-- Every run comes to an end.
theorem length_le {ok : State ν α β → Act ν α β → Prop} (hG : G.IsAcyclic)
    (hn : ∀ v w, w ∈ neighbors v ↔ G.Adj v w) (hm : ∀ v, neighbors v ⊆ nodes) (hs : start ∈ nodes)
    (r : Runs neighbors ok start content as s) : as.length ≤ ∑ v ∈ nodes, cost neighbors v := by
  have h := r.length_le (I := Once G start) (f := State.cost neighbors nodes) once_start
    (fun h _ e => h.step hG hn e) (fun h _ e => cost_step hG hn hm h e)
  have hcost : (State.start start content : State ν α β).cost neighbors nodes = ∑ v ∈ nodes, cost neighbors v := by
    have hf : nodes.filter (· ∉ [start]) = nodes.erase start := by
      ext v
      simp [and_comm]
    simp only [State.cost, State.start, List.map_cons, List.map_nil, Request.first, hf, Multiset.map_singleton,
      Multiset.sum_singleton, Multiset.map_zero, Multiset.sum_zero, Multiset.card_zero, add_zero]
    exact Finset.sum_erase_add _ _ hs
  omega

-- Whatever has been done without faults, the first node can still answer.
theorem exists_result (hG : G.IsAcyclic) (hn : ∀ v w, w ∈ neighbors v ↔ G.Adj v w) (hm : ∀ v, neighbors v ⊆ nodes)
    (r : Runs neighbors (Follows forward bid) start content as s) :
    ∃ bs s', Run (State.step neighbors) (Follows forward bid) s bs s' ∧ s'.result.isSome = true := by
  have hc := complete_run hG hn (fun _ _ => not_fault_of_follows) r
  refine Run.exists_of_progress (I := fun s => Once G start s ∧ Complete G start s)
    (f := State.cost neighbors nodes) le_rfl hc ?_ (fun h _ e => cost_step hG hn hm h.1 e) ?_
  case refine_1 =>
    intro s a s' h hf e
    exact ⟨h.1.step hG hn e, h.2.step h.1 (not_fault_of_follows hf) e⟩
  case refine_2 =>
    intro s h hr
    obtain ⟨a, ha, hs⟩ := exists_step h.1 h.2.waits (by simpa using hr) forward bid
    obtain ⟨s', hs⟩ := Option.isSome_iff_exists.mp hs
    exact ⟨a, s', ha, hs⟩

end Length
end Echo
