import Mathlib.Combinatorics.SimpleGraph.Acyclic
import FogMarket.Library.Echo.Basic

open SimpleGraph

namespace Echo

-- The first request is the last of the list. Every other one comes from a node which has been asked
-- before, and goes to an adjacent one which has not.
inductive Spread {ν α : Type*} (G : SimpleGraph ν) (start : ν) : List (Request ν α) → Prop
  | first {content} : Spread G start [.first start content]
  | ask {rs r} (h : Spread G start rs) (origin : r.origin ∈ rs.map Request.node)
      (new : r.node ∉ rs.map Request.node) (adj : G.Adj r.origin r.node) : Spread G start (r :: rs)

variable {ν α β : Type*} {G : SimpleGraph ν} {start v w : ν} {rs : List (Request ν α)} {r q : Request ν α}

namespace Spread

theorem nodup (h : Spread G start rs) : (rs.map Request.node).Nodup := by
  induction h
  case first         => simp
  case ask new _ hi  => exact List.nodup_cons.mpr ⟨new, hi⟩

theorem start_mem (h : Spread G start rs) : start ∈ rs.map Request.node := by
  induction h
  case first  => simp [Request.first]
  case ask hi => exact List.mem_cons_of_mem _ hi

theorem origin_mem (h : Spread G start rs) (hr : r ∈ rs) : r.origin ∈ rs.map Request.node := by
  induction h
  case first =>
    cases List.mem_singleton.mp hr
    simp [Request.first]
  case ask ho _ _ hi =>
    refine List.mem_cons_of_mem _ ?_
    cases List.mem_cons.mp hr
    case inl hr => exact hr ▸ ho
    case inr hr => exact hi hr

-- A request which a node sends to itself is the first one.
theorem eq_first (h : Spread G start rs) (hr : r ∈ rs) (he : r.origin = r.node) : r.node = start := by
  induction h
  case first => exact List.mem_singleton.mp hr ▸ rfl
  case ask hadj hi =>
    cases List.mem_cons.mp hr
    case inl hr => exact absurd (hr ▸ he) hadj.ne
    case inr hr => exact hi hr

-- The first node is not asked again.
theorem origin_of_start (h : Spread G start rs) (hr : r ∈ rs) (he : r.node = start) : r.origin = start := by
  induction h
  case first => exact List.mem_singleton.mp hr ▸ rfl
  case ask h _ hnew _ hi =>
    cases List.mem_cons.mp hr
    case inl hr => exact absurd (hr ▸ he ▸ h.start_mem) hnew
    case inr hr => exact hi hr

theorem eq_of_node (h : Spread G start rs) (hr : r ∈ rs) (hq : q ∈ rs) (he : r.node = q.node) : r = q :=
  List.inj_on_of_nodup_map h.nodup hr hq he

-- Nodes which have been asked are connected by nodes which have been asked.
theorem exists_walk_start (h : Spread G start rs) (hv : v ∈ rs.map Request.node) :
    ∃ p : G.Walk v start, ∀ x ∈ p.support, x ∈ rs.map Request.node := by
  induction h generalizing v
  case first =>
    cases List.mem_singleton.mp hv
    exact ⟨.nil, fun x hx => hx⟩
  case ask rs r h ho _ hadj hi =>
    cases List.mem_cons.mp hv
    case inl hv =>
      obtain ⟨p, hp⟩ := hi ho
      refine ⟨.cons (hv ▸ hadj.symm) p, fun x hx => ?_⟩
      rw [Walk.support_cons, List.mem_cons] at hx
      cases hx
      case inl hx => exact hx ▸ hv ▸ List.mem_cons_self
      case inr hx => exact List.mem_cons_of_mem _ (hp x hx)
    case inr hv =>
      obtain ⟨p, hp⟩ := hi hv
      exact ⟨p, fun x hx => List.mem_cons_of_mem _ (hp x hx)⟩

theorem exists_path [DecidableEq ν] (h : Spread G start rs) (hv : v ∈ rs.map Request.node)
    (hw : w ∈ rs.map Request.node) : ∃ p : G.Path v w, ∀ x ∈ p.1.support, x ∈ rs.map Request.node := by
  obtain ⟨p, hp⟩ := h.exists_walk_start hv
  obtain ⟨q, hq⟩ := h.exists_walk_start hw
  refine ⟨(p.append q.reverse).toPath, fun x hx => ?_⟩
  have hx := Walk.support_toPath_subset_support _ hx
  rw [Walk.mem_support_append_iff, Walk.support_reverse, List.mem_reverse] at hx
  exact hx.elim (hp x) (hq x)

-- Without cycles, the edges between nodes which have been asked are those over which they have been asked.
theorem edge [DecidableEq ν] (hG : G.IsAcyclic) (h : Spread G start rs) (hr : r ∈ rs)
    (hw : w ∈ rs.map Request.node) (hadj : G.Adj r.node w) :
    w = r.origin ∨ ∃ q ∈ rs, q.node = w ∧ q.origin = r.node := by
  induction h
  case first =>
    cases List.mem_singleton.mp hr
    cases List.mem_singleton.mp hw
    exact absurd rfl hadj.ne
  case ask rs q h ho hnew hq hi =>
    -- A node which is adjacent to the new one is where the new request comes from.
    have honly {x} (hx : x ∈ rs.map Request.node) (hadj : G.Adj q.node x) : x = q.origin := by
      obtain ⟨p, hp⟩ := h.exists_path ho hx
      have hpath : (Walk.cons hq.symm p.1).IsPath := p.2.cons fun hm => hnew (hp _ hm)
      have he := (hG.subsingleton_path _ _).elim ⟨_, hpath⟩ (Path.singleton hadj)
      have he := congrArg (fun p : G.Path q.node x => p.1.snd) he
      simpa using he.symm
    rw [List.map_cons, List.mem_cons] at hw
    cases List.mem_cons.mp hr
    case inl hr =>
      subst hr
      cases hw
      case inl hw => exact absurd hw.symm hadj.ne
      case inr hw => exact .inl (honly hw hadj)
    case inr hr =>
      cases hw
      case inl hw =>
        subst hw
        refine .inr ⟨q, List.mem_cons_self, rfl, (honly (List.mem_map_of_mem hr) hadj.symm).symm⟩
      case inr hw =>
        refine (hi hr hw).imp_right ?_
        rintro ⟨q', hq', he⟩
        exact ⟨q', List.mem_cons_of_mem _ hq', he⟩

end Spread

-- Every node is asked at most once.
structure Once (G : SimpleGraph ν) (start : ν) (s : State ν α β) : Prop where
  spread  : Spread G start s.sent
  active  : s.active ≤ (s.sent.map fun r => (r.node, r.origin) : List (ν × ν))
  pending : s.pending + s.made.map Prod.fst ≤ (s.sent.map Request.node : List ν)
  fresh   : ∀ r ∈ s.requests, ∀ q ∈ s.sent, q.origin = r.node → q.node = r.node
  rest    : ∀ t ∈ s.tasks, ∀ w ∈ t.rest, G.Adj t.node w ∧ w ≠ t.origin ∧ ∀ q ∈ s.sent, q.node = w → q.origin ≠ t.node

variable {s s' : State ν α β} {t u : Task ν α β} {a : Act ν α β} {neighbors : ν → Finset ν}

theorem once_start {content : α} : Once G start (.start start content : State ν α β) where
  spread  := .first
  active  := le_rfl
  pending := le_rfl
  fresh   := by simp [State.start]
  rest    := by simp [State.start]

theorem mem_active_task (ht : t ∈ s.tasks) : (t.node, t.origin) ∈ s.active := by
  simp only [State.active, Multiset.mem_add]
  exact .inl (.inr (Multiset.mem_map_of_mem (fun t : Task ν α β => (t.node, t.origin)) ht))

theorem mem_active_request {r : Request ν α} (hr : r ∈ s.requests) : (r.node, r.origin) ∈ s.active := by
  simp only [State.active, Multiset.mem_add]
  exact .inl (.inl (Multiset.mem_map_of_mem (fun r : Request ν α => (r.node, r.origin)) hr))

theorem mem_active_answer {a : Answer ν β} (ha : a ∈ s.answers) : (a.node, a.origin) ∈ s.active := by
  simp only [State.active, Multiset.mem_add]
  exact .inr (Multiset.mem_map_of_mem (fun a : Answer ν β => (a.node, a.origin)) ha)

theorem Once.exists_request (h : Once G start s) {x : ν × ν} (hx : x ∈ s.active) :
    ∃ r ∈ s.sent, (r.node, r.origin) = x := by
  have hm := Multiset.mem_of_le h.active hx
  simpa using hm

theorem Once.exists_sent (h : Once G start s) (ht : t ∈ s.tasks) :
    ∃ r ∈ s.sent, r.node = t.node ∧ r.origin = t.origin := by
  simpa using h.exists_request (mem_active_task ht)

theorem Once.nodup (h : Once G start s) :
    (s.requests.map Request.node + s.tasks.map Task.node + s.answers.map Answer.node).Nodup := by
  have ha := Multiset.map_le_map (f := Prod.fst) h.active
  simp only [State.active, Multiset.map_add, Multiset.map_map, Multiset.map_coe, List.map_map] at ha
  exact Multiset.nodup_of_le ha (Multiset.coe_nodup.mpr h.spread.nodup)

theorem Once.nodup_tasks (h : Once G start s) : (s.tasks.map Task.node).Nodup :=
  (Multiset.nodup_add.mp (Multiset.nodup_add.mp h.nodup).1).2.1

-- A node has got its request before it works on it.
theorem Once.received (h : Once G start s) (ht : t ∈ s.tasks) (hr : r ∈ s.requests) : r.node ≠ t.node := by
  intro he
  have hd := (Multiset.nodup_add.mp (Multiset.nodup_add.mp h.nodup).1).2.2
  exact Multiset.disjoint_left.mp hd (Multiset.mem_map_of_mem _ hr) (he ▸ Multiset.mem_map_of_mem _ ht)

theorem Once.eq_of_node (h : Once G start s) (ht : t ∈ s.tasks) (ht' : u ∈ s.tasks) (he : u.node = t.node) :
    u = t :=
  Multiset.inj_on_of_nodup_map h.nodup_tasks _ ht' _ ht he

-- What is taken away does not count any more.
theorem active_mono (hr : s'.requests ≤ s.requests) (ht : s'.tasks ≤ s.tasks) (ha : s'.answers ≤ s.answers) :
    s'.active ≤ s.active :=
  add_le_add (add_le_add (Multiset.map_le_map hr) (Multiset.map_le_map ht)) (Multiset.map_le_map ha)

theorem pending_mono (hr : s'.requests ≤ s.requests) (ht : s'.tasks ≤ s.tasks) : s'.pending ≤ s.pending :=
  add_le_add (Multiset.map_le_map hr) (Multiset.map_le_map (Multiset.filter_le_filter _ ht))

-- An act which does not ask anyone.
theorem Once.shrink (h : Once G start s) (hs : s'.sent = s.sent) (ha : s'.active ≤ s.active)
    (hp : s'.pending + s'.made.map Prod.fst ≤ s.pending + s.made.map Prod.fst) (hr : s'.requests ≤ s.requests)
    (ht : ∀ u ∈ s'.tasks, ∃ t ∈ s.tasks, u.node = t.node ∧ u.origin = t.origin ∧ u.rest ⊆ t.rest) :
    Once G start s' where
  spread  := hs ▸ h.spread
  active  := hs ▸ ha.trans h.active
  pending := hs ▸ hp.trans h.pending
  fresh   := fun r hm => hs ▸ h.fresh r (Multiset.mem_of_le hr hm)
  rest    := by
    intro u hm w hw
    obtain ⟨t, hm, hn, ho, hr⟩ := ht u hm
    rw [hs, hn, ho]
    exact h.rest t hm w (hr hw)

variable [DecidableEq ν] [DecidableEq α] [DecidableEq β]

theorem Once.node_ne (h : Once G start s) (ht : t ∈ s.tasks) (ht' : u ∈ s.tasks.erase t) : u.node ≠ t.node := by
  intro he
  have hd := Multiset.Nodup.of_map _ h.nodup_tasks
  exact (Multiset.Nodup.mem_erase_iff hd).mp ht' |>.1 (h.eq_of_node ht (Multiset.mem_of_mem_erase ht') he)

theorem mem_setTask {x : Task ν α β} (h : x ∈ (s.setTask t u).tasks) : x = u ∨ x ∈ s.tasks :=
  (Multiset.mem_cons.mp h).imp_right Multiset.mem_of_mem_erase

theorem active_setTask (ht : t ∈ s.tasks) (hn : u.node = t.node) (ho : u.origin = t.origin) :
    (s.setTask t u).active = s.active := by
  rw [State.active, State.active, State.setTask, Multiset.map_cons, hn, ho,
    ← Multiset.map_cons (fun t : Task ν α β => (t.node, t.origin)), Multiset.cons_erase ht]

omit [DecidableEq β] in
theorem active_receive {r : Request ν α} (h : r ∈ s.requests) :
    { s with requests := s.requests.erase r, tasks := r.task neighbors ::ₘ s.tasks }.active = s.active := by
  obtain ⟨R, hR⟩ := Multiset.exists_cons_of_mem h
  simp only [State.active, hR, Multiset.erase_cons_head, Multiset.map_cons, Request.task, Multiset.cons_add,
    Multiset.add_cons]

theorem active_reply (ht : t ∈ s.tasks) :
    { s with tasks := s.tasks.erase t, answers := t.answer ::ₘ s.answers }.active = s.active := by
  obtain ⟨T, hT⟩ := Multiset.exists_cons_of_mem ht
  simp only [State.active, hT, Multiset.erase_cons_head, Multiset.map_cons, Task.answer, Multiset.cons_add,
    Multiset.add_cons]

theorem pending_setTask (ht : t ∈ s.tasks) (hn : u.node = t.node) (ho : u.own = .ended ↔ t.own = .ended) :
    (s.setTask t u).pending = s.pending := by
  obtain ⟨T, hT⟩ := Multiset.exists_cons_of_mem ht
  simp only [State.pending, State.setTask, hT, Multiset.erase_cons_head, Multiset.filter_cons, ne_eq, ho]
  split <;> simp [hn]

omit [DecidableEq β] in
theorem pending_receive {r : Request ν α} (h : r ∈ s.requests) :
    { s with requests := s.requests.erase r, tasks := r.task neighbors ::ₘ s.tasks }.pending = s.pending := by
  obtain ⟨R, hR⟩ := Multiset.exists_cons_of_mem h
  simp [State.pending, hR, Request.task]

theorem pending_finish {b : Option β} (ht : t ∈ s.tasks) (ho : t.own = .running) :
    t.node ::ₘ (s.setTask t (t.finish b)).pending = s.pending := by
  obtain ⟨T, hT⟩ := Multiset.exists_cons_of_mem ht
  simp [State.pending, State.setTask, hT, Task.finish, ho]

theorem shrink_setTask (hn : u.node = t.node) (ho : u.origin = t.origin) (hr : u.rest ⊆ t.rest) (ht : t ∈ s.tasks) :
    ∀ x ∈ (s.setTask t u).tasks, ∃ y ∈ s.tasks, x.node = y.node ∧ x.origin = y.origin ∧ x.rest ⊆ y.rest := by
  intro x hx
  cases mem_setTask hx
  case inl hx => exact hx ▸ ⟨t, ht, hn, ho, hr⟩
  case inr hx => exact ⟨x, hx, rfl, rfl, subset_rfl⟩

namespace Once

theorem setTask (h : Once G start s) (ht : t ∈ s.tasks) (hn : u.node = t.node) (ho : u.origin = t.origin)
    (hr : u.rest ⊆ t.rest) (hw : u.own = .ended ↔ t.own = .ended) : Once G start (s.setTask t u) :=
  h.shrink rfl (active_setTask ht hn ho).le (by rw [pending_setTask ht hn hw]; rfl) le_rfl
    (shrink_setTask hn ho hr ht)

omit [DecidableEq β] in
-- The neighbors of a node which has just got its request have not been asked by it.
theorem receive (hn : ∀ v w, w ∈ neighbors v ↔ G.Adj v w) (h : Once G start s) (hr : r ∈ s.requests) :
    Once G start { s with requests := s.requests.erase r, tasks := r.task neighbors ::ₘ s.tasks } where
  spread  := h.spread
  active  := active_receive hr ▸ h.active
  pending := pending_receive hr ▸ h.pending
  fresh   := fun q hq => h.fresh q (Multiset.mem_of_mem_erase hq)
  rest    := by
    intro t ht w hw
    cases Multiset.mem_cons.mp ht
    case inr ht => exact h.rest t ht w hw
    case inl ht =>
      subst ht
      have hw := Finset.mem_erase.mp hw
      have hadj := (hn _ _).mp hw.2
      refine ⟨hadj, hw.1, fun q hq he ho => ?_⟩
      exact hadj.ne (he ▸ h.fresh r hr q hq ho).symm

-- Only the neighbor which is asked can have been asked before, and it has not.
theorem ask {content : α} (hG : G.IsAcyclic) (h : Once G start s) (ht : t ∈ s.tasks) (hw : w ∈ t.rest) :
    Once G start { s.setTask t (t.ask w) with
      sent     := t.request w content :: s.sent
      requests := t.request w content ::ₘ s.requests } := by
  obtain ⟨hadj, hne, hnot⟩ := h.rest t ht w hw
  obtain ⟨r, hr, hrn, hro⟩ := h.exists_sent ht
  have hnew : w ∉ s.sent.map Request.node := by
    intro hm
    cases h.spread.edge hG hr hm (hrn ▸ hadj)
    case inl he => exact hne (he.trans hro)
    case inr he =>
      obtain ⟨q, hq, hqn, hqo⟩ := he
      exact hnot q hq hqn (hqo.trans hrn)
  constructor
  case spread =>
    exact .ask h.spread (List.mem_map.mpr ⟨r, hr, hrn⟩) hnew hadj
  case active =>
    have ha := active_setTask (s := s) (t := t) (u := t.ask w) ht rfl rfl
    rw [List.map_cons, ← Multiset.cons_coe]
    refine le_trans (le_of_eq ?_) (Multiset.cons_le_cons _ (ha ▸ h.active))
    simp only [State.active, Task.request, State.setTask, Multiset.map_cons, Multiset.cons_add]
  case pending =>
    have hp := pending_setTask (s := s) (t := t) (u := t.ask w) ht rfl Iff.rfl
    rw [List.map_cons, ← Multiset.cons_coe]
    refine le_trans (le_of_eq ?_) (Multiset.cons_le_cons _ (hp ▸ h.pending))
    simp [State.pending, Task.request, State.setTask]
  case fresh =>
    intro r' hr' q hq ho
    cases Multiset.mem_cons.mp hr' <;> cases List.mem_cons.mp hq
    case inl.inl hr' hq => rw [hr', hq]
    case inl.inr hr' hq => exact absurd (by simpa [ho, hr', Task.request] using h.spread.origin_mem hq) hnew
    case inr.inl hr' hq => exact absurd (hq ▸ ho).symm (h.received ht hr')
    case inr.inr hr' hq => exact h.fresh r' hr' q hq ho
  case rest =>
    intro u ht' x hx
    cases Multiset.mem_cons.mp ht'
    case inl ht' =>
      subst ht'
      obtain ⟨hxw, hx⟩ := Finset.mem_erase.mp hx
      obtain ⟨hadj, hne, hnot⟩ := h.rest t ht x hx
      refine ⟨hadj, hne, fun q hq he => ?_⟩
      cases List.mem_cons.mp hq
      case inl hq => exact absurd (he.symm.trans (hq ▸ rfl)) hxw
      case inr hq => exact hnot q hq he
    case inr ht' =>
      obtain ⟨hadj, hne, hnot⟩ := h.rest u (Multiset.mem_of_mem_erase ht') x hx
      refine ⟨hadj, hne, fun q hq he => ?_⟩
      cases List.mem_cons.mp hq
      case inl hq => exact hq ▸ (h.node_ne ht ht').symm
      case inr hq => exact hnot q hq he

theorem step (hG : G.IsAcyclic) (hn : ∀ v w, w ∈ neighbors v ↔ G.Adj v w) (h : Once G start s)
    (e : s.step neighbors a = some s') : Once G start s' := by
  cases a <;> simp only [State.step] at e <;> split at e <;> cases e
  case receive hr       => exact h.receive hn hr
  case ask ht           => exact h.ask hG ht.1 ht.2
  case skip ht          => exact h.setTask ht.1 rfl rfl (Finset.erase_subset ..) Iff.rfl
  case begin ht         => exact h.setTask ht.1 rfl rfl subset_rfl (by simp [ht.2])
  case giveUp ht        => exact h.setTask ht.1 rfl rfl subset_rfl Iff.rfl
  case loseRequest r hr =>
    have hle := Multiset.erase_le r s.requests
    refine h.shrink rfl (active_mono hle le_rfl le_rfl) ?_ hle fun t ht => ⟨t, ht, rfl, rfl, subset_rfl⟩
    exact add_le_add (pending_mono hle le_rfl) le_rfl
  case loseAnswer a ha =>
    refine h.shrink rfl (active_mono le_rfl le_rfl (Multiset.erase_le ..)) le_rfl le_rfl ?_
    exact fun t ht => ⟨t, ht, rfl, rfl, subset_rfl⟩
  case abort t ht =>
    have hle := Multiset.erase_le t s.tasks
    refine h.shrink rfl (active_mono le_rfl hle le_rfl) (add_le_add (pending_mono le_rfl hle) le_rfl) le_rfl ?_
    exact fun t ht => ⟨t, Multiset.mem_of_mem_erase ht, rfl, rfl, subset_rfl⟩
  case finish t b ht =>
    have ha := active_setTask (s := s) (t := t) (u := t.finish b) ht.1 rfl rfl
    refine h.shrink rfl ha.le (le_of_eq ?_) le_rfl (shrink_setTask rfl rfl subset_rfl ht.1)
    rw [← pending_finish (b := b) ht.1 ht.2]
    simp [State.pending, State.setTask]
  case deliver a t hd =>
    obtain ⟨ha, ht, -, -⟩ := hd
    have hactive := active_setTask (s := s) (t := t) (u := t.collect a) ht rfl rfl
    have hle : { s.setTask t (t.collect a) with answers := s.answers.erase a }.active ≤
        (s.setTask t (t.collect a)).active :=
      active_mono le_rfl le_rfl (Multiset.erase_le ..)
    refine h.shrink rfl (hle.trans hactive.le) ?_ le_rfl (shrink_setTask rfl rfl subset_rfl ht)
    exact add_le_add (pending_setTask (s := s) (t := t) (u := t.collect a) ht rfl Iff.rfl).le le_rfl
  case reply t hr =>
    have hle := Multiset.erase_le t s.tasks
    have hp : { s with tasks := s.tasks.erase t }.pending ≤ s.pending := pending_mono le_rfl hle
    have ht : ∀ u ∈ s.tasks.erase t, ∃ t ∈ s.tasks, u.node = t.node ∧ u.origin = t.origin ∧ u.rest ⊆ t.rest :=
      fun t ht => ⟨t, Multiset.mem_of_mem_erase ht, rfl, rfl, subset_rfl⟩
    split
    case isTrue  => exact h.shrink rfl (active_mono le_rfl hle le_rfl) (add_le_add hp le_rfl) le_rfl ht
    case isFalse => exact h.shrink rfl (active_reply hr.1).le (add_le_add hp le_rfl) le_rfl ht

end Once
end Echo
