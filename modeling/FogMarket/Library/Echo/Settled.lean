import FogMarket.Library.Echo.Once

open SimpleGraph

namespace Echo

-- What holds of everything which is asked.
structure Contents {ν α β : Type*} (P : α → Prop) (s : State ν α β) : Prop where
  requests : ∀ r ∈ s.requests, P r.content
  tasks    : ∀ t ∈ s.tasks, P t.content

variable {ν α β : Type*}

-- The task whose own part an act is about.
def Act.works : Act ν α β → Option (Task ν α β)
  | begin t | finish t _ | abort t => some t
  | _                              => none

-- The node has been asked, and it is not going to contribute any more.
def State.Settled (s : State ν α β) (v : ν) : Prop :=
  v ∈ s.sent.map Request.node ∧ v ∉ s.pending

def Task.Runs (t : Task ν α β) (v : ν) : Prop :=
  t.node = v ∧ t.own = .running

variable [DecidableEq ν]

instance (t : Task ν α β) (v : ν) : Decidable (t.Runs v) :=
  inferInstanceAs (Decidable (_ ∧ _))

-- How often a node is working on what it contributes on its own.
def State.running (s : State ν α β) (v : ν) : ℕ :=
  s.tasks.countP (·.Runs v)

variable {G : SimpleGraph ν} {start v w : ν} {s s' : State ν α β} {t u : Task ν α β} {a : Act ν α β}
variable {neighbors : ν → Finset ν} {P : α → Prop}

-- Who is working on a contribution has not contributed yet.
theorem mem_pending_of_running (h : s.running v ≠ 0) : v ∈ s.pending := by
  obtain ⟨t, ht, rfl, ho⟩ := Multiset.countP_pos.mp (Nat.pos_of_ne_zero h)
  refine Multiset.mem_add.mpr (.inr (Multiset.mem_map_of_mem _ ?_))
  exact Multiset.mem_filter.mpr ⟨ht, by simp [ho]⟩

variable [DecidableEq α] [DecidableEq β]

theorem running_setTask (ht : t ∈ s.tasks) :
    (s.setTask t u).running v + (if t.Runs v then 1 else 0) = s.running v + if u.Runs v then 1 else 0 := by
  obtain ⟨T, hT⟩ := Multiset.exists_cons_of_mem ht
  simp only [State.running, State.setTask, hT, Multiset.erase_cons_head, Multiset.countP_cons]
  omega

theorem running_setTask_eq (ht : t ∈ s.tasks) (hn : u.node = t.node) (ho : u.own = t.own) :
    (s.setTask t u).running = s.running := by
  ext1 v
  have he : u.Runs v ↔ t.Runs v := by simp only [Task.Runs, hn, ho]
  have h := running_setTask (u := u) (v := v) ht
  rw [if_congr he rfl rfl] at h
  exact Nat.add_right_cancel h

theorem running_erase (ht : t ∈ s.tasks) :
    ({ s with tasks := s.tasks.erase t } : State ν α β).running v + (if t.Runs v then 1 else 0) = s.running v := by
  obtain ⟨T, hT⟩ := Multiset.exists_cons_of_mem ht
  simp only [State.running, hT, Multiset.erase_cons_head, Multiset.countP_cons]

theorem running_step (h : a.works = none) (e : s.step neighbors a = some s') : s'.running = s.running := by
  cases a <;> simp only [State.step] at e <;> split at e <;> cases e <;> try contradiction
  case receive r hr =>
    ext1 v
    exact Multiset.countP_cons_of_neg _ fun h => by simp [Request.task, Task.Runs] at h
  case ask ht        => exact running_setTask_eq ht.1 rfl rfl
  case skip ht       => exact running_setTask_eq ht.1 rfl rfl
  case giveUp ht     => exact running_setTask_eq ht.1 rfl rfl
  case deliver hd    => exact running_setTask_eq hd.2.1 rfl rfl
  case loseRequest   => rfl
  case loseAnswer    => rfl
  case reply t ht =>
    ext1 v
    have h := running_erase (v := v) ht.1
    simp only [Task.Runs, ht.2.2.2, reduceCtorEq, and_false, if_false, add_zero] at h
    split <;> exact h

theorem running_begin (e : s.step neighbors (.begin t) = some s') :
    s'.running v = s.running v + if t.node = v then 1 else 0 := by
  simp only [State.step] at e
  split at e <;> cases e
  case isTrue ht =>
    have h := running_setTask (u := { t with own := .running }) (v := v) ht.1
    simpa [Task.Runs, ht.2] using h

theorem running_finish {b : Option β} (e : s.step neighbors (.finish t b) = some s') :
    s'.running v + (if t.node = v then 1 else 0) = s.running v := by
  simp only [State.step] at e
  split at e <;> cases e
  case isTrue ht =>
    have h := running_setTask (u := t.finish b) (v := v) ht.1
    simp only [Task.Runs, Task.finish, ht.2, reduceCtorEq, and_false, and_true, if_false, add_zero] at h
    exact h

theorem running_abort (e : s.step neighbors (.abort t) = some s') :
    s'.running v + (if t.node = v then 1 else 0) = s.running v := by
  simp only [State.step] at e
  split at e <;> cases e
  case isTrue ht =>
    have h := running_erase (v := v) ht.1
    simpa [Task.Runs, ht.2] using h

theorem made_step (e : s.step neighbors a = some s') :
    s'.made = s.made ∨ ∃ t b, a = .finish t b ∧ s'.made = (t.node, b) ::ₘ s.made := by
  cases a <;> simp only [State.step] at e <;> split at e <;> cases e
  case finish t b _ => exact .inr ⟨t, b, rfl, rfl⟩
  case reply t _    => left; split <;> rfl
  all_goals exact .inl rfl

theorem Contents.setTask (h : Contents P s) (ht : t ∈ s.tasks) (hc : u.content = t.content) :
    Contents P (s.setTask t u) where
  requests := h.requests
  tasks    := by
    intro x hx
    cases mem_setTask hx
    case inl hx => exact hx ▸ hc ▸ h.tasks t ht
    case inr hx => exact h.tasks x hx

theorem Contents.step (h : Contents P s) (ha : ∀ t w content, a = .ask t w content → P t.content → P content)
    (e : s.step neighbors a = some s') : Contents P s' := by
  have herase (t : Task ν α β) : ∀ u ∈ s.tasks.erase t, P u.content :=
    fun u ht' => h.tasks u (Multiset.mem_of_mem_erase ht')
  cases a <;> simp only [State.step] at e <;> split at e <;> cases e
  case receive r hr =>
    refine ⟨fun q hq => h.requests q (Multiset.mem_of_mem_erase hq), fun t ht => ?_⟩
    cases Multiset.mem_cons.mp ht
    case inl ht => exact ht ▸ h.requests r hr
    case inr ht => exact h.tasks t ht
  case ask t w content ht =>
    refine ⟨fun r hr => ?_, (h.setTask (u := t.ask w) ht.1 rfl).tasks⟩
    cases Multiset.mem_cons.mp hr
    case inl hr => exact hr ▸ ha t w content rfl (h.tasks t ht.1)
    case inr hr => exact h.requests r hr
  case skip ht     => exact h.setTask ht.1 rfl
  case begin ht    => exact h.setTask ht.1 rfl
  case giveUp ht   => exact h.setTask ht.1 rfl
  case finish t b ht  => exact ⟨h.requests, (h.setTask (u := t.finish b) ht.1 rfl).tasks⟩
  case deliver a t hd => exact ⟨h.requests, (h.setTask (u := t.collect a) hd.2.1 rfl).tasks⟩
  case reply t _      => split <;> exact ⟨h.requests, herase t⟩
  case loseRequest    => exact ⟨fun q hq => h.requests q (Multiset.mem_of_mem_erase hq), h.tasks⟩
  case loseAnswer     => exact ⟨h.requests, h.tasks⟩
  case abort t _      => exact ⟨h.requests, herase t⟩

-- Only who is asked for the first time can become pending.
theorem pending_step_le (e : s.step neighbors a = some s') :
    s'.pending ≤ s.pending ∨ ∃ t w content, a = .ask t w content ∧ s'.pending = w ::ₘ s.pending := by
  cases a <;> simp only [State.step] at e <;> split at e <;> cases e
  case receive hr => exact .inl (pending_receive hr).le
  case ask t w content ht =>
    have hp := pending_setTask (s := s) (u := t.ask w) ht.1 rfl Iff.rfl
    refine .inr ⟨t, w, content, rfl, ?_⟩
    rw [← hp]
    simp [State.pending, Task.request, State.setTask]
  case skip t w ht => exact .inl (pending_setTask (u := t.skip w) ht.1 rfl Iff.rfl).le
  case begin t ht  => exact .inl (pending_setTask (u := { t with own := .running }) ht.1 rfl (by simp [ht.2])).le
  case finish t b ht =>
    refine .inl ?_
    rw [← pending_finish (b := b) ht.1 ht.2]
    exact Multiset.le_cons_self ..
  case deliver a t hd => exact .inl (pending_setTask (u := t.collect a) hd.2.1 rfl Iff.rfl).le
  case reply t ht     => left; split <;> exact pending_mono le_rfl (Multiset.erase_le ..)
  case loseRequest    => exact .inl (pending_mono (Multiset.erase_le ..) le_rfl)
  case loseAnswer     => exact .inl le_rfl
  case giveUp t w ht  => exact .inl (pending_setTask (u := t.giveUp w) ht.1 rfl Iff.rfl).le
  case abort          => exact .inl (pending_mono le_rfl (Multiset.erase_le ..))

theorem sent_subset_step (e : s.step neighbors a = some s') (h : v ∈ s.sent.map Request.node) :
    v ∈ s'.sent.map Request.node := by
  cases a <;> simp only [State.step] at e <;> split at e <;> cases e
  case ask t w content _ => exact List.mem_cons_of_mem _ h
  case reply             => split <;> exact h
  all_goals exact h

-- Nobody has to contribute again.
theorem State.Settled.step (hG : G.IsAcyclic) (hn : ∀ v w, w ∈ neighbors v ↔ G.Adj v w) (o : Once G start s)
    (h : s.Settled v) (e : s.step neighbors a = some s') : s'.Settled v := by
  refine ⟨sent_subset_step e h.1, ?_⟩
  obtain hle | ⟨t, w, content, rfl, hp⟩ := pending_step_le e
  case inl => exact fun hv => h.2 (Multiset.mem_of_le hle hv)
  case inr =>
    rw [hp, Multiset.mem_cons, not_or]
    refine ⟨?_, h.2⟩
    rintro rfl
    have o := (o.step hG hn e).spread.nodup
    simp only [State.step] at e
    split at e <;> cases e
    exact (List.nodup_cons.mp o).1 h.1

omit [DecidableEq ν] [DecidableEq α] [DecidableEq β] in
theorem Once.settled (o : Once G start s) (ht : t ∈ s.tasks) (hs : s'.sent = s.sent)
    (hp : t.node ::ₘ s'.pending = s.pending) : s'.Settled t.node := by
  obtain ⟨r, hr, hrn, -⟩ := o.exists_sent ht
  refine ⟨hs ▸ List.mem_map.mpr ⟨r, hr, hrn⟩, ?_⟩
  have hle : s.pending ≤ (s.sent.map Request.node : List ν) := (Multiset.le_add_right ..).trans o.pending
  have hd := Multiset.nodup_of_le hle (Multiset.coe_nodup.mpr o.spread.nodup)
  exact (Multiset.nodup_cons.mp (hp ▸ hd)).1

theorem settled_finish {b : Option β} (o : Once G start s) (e : s.step neighbors (.finish t b) = some s') :
    s'.Settled t.node := by
  simp only [State.step] at e
  split at e <;> cases e
  case isTrue ht => exact o.settled ht.1 rfl (pending_finish ht.1 ht.2)

theorem settled_abort (o : Once G start s) (e : s.step neighbors (.abort t) = some s') : s'.Settled t.node := by
  simp only [State.step] at e
  split at e <;> cases e
  case isTrue ht =>
    refine o.settled ht.1 rfl ?_
    obtain ⟨T, hT⟩ := Multiset.exists_cons_of_mem ht.1
    simp [State.pending, hT, ht.2]

end Echo
