import Mathlib.Tactic.Abel
import FogMarket.Library.Echo.Once

open Transition

namespace Echo

variable {ν α β : Type*} {G : SimpleGraph ν} {start v w : ν} {s s' : State ν α β} {t u : Task ν α β}
variable {a : Act ν α β} {neighbors : ν → Finset ν}

-- What has been found and has not been lost.
def State.found (s : State ν α β) : Multiset β :=
  (s.tasks.map Task.found).sum + (s.answers.map Answer.found).sum + s.result.getD 0

-- What has been contributed.
def State.contributed (s : State ν α β) : Multiset β :=
  s.made.filterMap Prod.snd

def State.awaiting (s : State ν α β) : Multiset (ν × Finset ν) :=
  s.tasks.map fun t => (t.node, t.waiting)

-- Whoever has been asked is waited for, and whoever waits for something waits for something that is still
-- to come. The first node does not have to be waited for.
structure Waits (G : SimpleGraph ν) (start : ν) (s : State ν α β) : Prop where
  awaited : ∀ x ∈ s.active, x.1 = start ∨ ∃ ws, (x.2, ws) ∈ s.awaiting ∧ x.1 ∈ ws
  waiting : ∀ x ∈ s.awaiting, ∀ w ∈ x.2, G.Adj x.1 w ∧ (w, x.1) ∈ s.active
  answers : ∀ a ∈ s.answers, a.origin ≠ a.node
  result  : s.result = none ↔ (start, start) ∈ s.active

-- Nothing gets lost.
structure Complete (G : SimpleGraph ν) (start : ν) (s : State ν α β) : Prop where
  found   : s.found = s.contributed
  pending : s.pending + s.made.map Prod.fst = (s.sent.map Request.node : List ν)
  waits   : Waits G start s

theorem waits_start {content : α} : Waits G start (.start start content : State ν α β) where
  awaited := by simp [State.start, State.active, Request.first]
  waiting := by simp [State.start, State.awaiting]
  answers := by simp [State.start]
  result  := by simp [State.start, State.active, Request.first]

theorem complete_start {content : α} : Complete G start (.start start content : State ν α β) where
  found   := rfl
  pending := rfl
  waits   := waits_start

variable [DecidableEq ν] [DecidableEq α] [DecidableEq β]

theorem found_setTask (ht : t ∈ s.tasks) (m : Multiset β) (hf : u.found = t.found + m) :
    (s.setTask t u).found = s.found + m := by
  obtain ⟨T, hT⟩ := Multiset.exists_cons_of_mem ht
  simp only [State.found, State.setTask, hT, Multiset.erase_cons_head, Multiset.map_cons, Multiset.sum_cons, hf]
  abel

theorem found_erase (ht : t ∈ s.tasks) : { s with tasks := s.tasks.erase t }.found + t.found = s.found := by
  obtain ⟨T, hT⟩ := Multiset.exists_cons_of_mem ht
  simp only [State.found, hT, Multiset.erase_cons_head, Multiset.map_cons, Multiset.sum_cons]
  abel

omit [DecidableEq α] in
theorem found_eraseAnswer {a : Answer ν β} (ha : a ∈ s.answers) :
    { s with answers := s.answers.erase a }.found + a.found = s.found := by
  obtain ⟨A, hA⟩ := Multiset.exists_cons_of_mem ha
  simp only [State.found, hA, Multiset.erase_cons_head, Multiset.map_cons, Multiset.sum_cons]
  abel

omit [DecidableEq ν] [DecidableEq α] [DecidableEq β] in
theorem contributed_cons {n : ν} {b : Option β} :
    { s with made := (n, b) ::ₘ s.made }.contributed = s.contributed + b.elim 0 ({·}) := by
  cases b <;> simp [State.contributed, Multiset.add_comm]

-- What an act contributes and what gets lost in it.
theorem found_step (e : s.step neighbors a = some s') : ∃ gained lost,
    s'.contributed = s.contributed + gained ∧ s'.found + lost = s.found + gained ∧
      (¬ a.Fault → s.result = none → lost = 0) := by
  have hset {t u : Task ν α β} (ht : t ∈ s.tasks) (hf : u.found = t.found) :
      (s.setTask t u).found + 0 = s.found + 0 :=
    (add_zero _).trans (found_setTask ht 0 (hf.trans (add_zero _).symm))
  cases a <;> simp only [State.step] at e <;> split at e <;> cases e
  case receive r hr =>
    refine ⟨0, 0, (add_zero _).symm, ?_, fun _ _ => rfl⟩
    simp [State.found, Request.task]
  case ask t w c ht    => exact ⟨0, 0, (add_zero _).symm, hset (u := t.ask w) ht.1 rfl, fun _ _ => rfl⟩
  case skip t w ht     => exact ⟨0, 0, (add_zero _).symm, hset (u := t.skip w) ht.1 rfl, fun _ _ => rfl⟩
  case begin t ht      =>
    exact ⟨0, 0, (add_zero _).symm, hset (u := { t with own := .running }) ht.1 rfl, fun _ _ => rfl⟩
  case giveUp t w ht   => exact ⟨0, 0, (add_zero _).symm, hset (u := t.giveUp w) ht.1 rfl, fun _ _ => rfl⟩
  case loseRequest     => exact ⟨0, 0, (add_zero _).symm, rfl, fun _ _ => rfl⟩
  case loseAnswer a ha =>
    exact ⟨0, a.found, (add_zero _).symm, (found_eraseAnswer ha).trans (add_zero _).symm, fun hf _ => absurd trivial hf⟩
  case abort t ht      =>
    exact ⟨0, t.found, (add_zero _).symm, (found_erase ht.1).trans (add_zero _).symm, fun hf _ => absurd trivial hf⟩
  case finish t b ht   =>
    refine ⟨b.elim 0 ({·}), 0, contributed_cons (s := s), ?_, fun _ _ => rfl⟩
    exact (add_zero _).trans (found_setTask (u := t.finish b) ht.1 _ rfl)
  case deliver a t hd  =>
    obtain ⟨ha, ht, -, -⟩ := hd
    refine ⟨0, 0, (add_zero _).symm, ?_, fun _ _ => rfl⟩
    have hf := found_setTask (s := s) (u := t.collect a) ht a.found rfl
    have he := found_eraseAnswer (s := s.setTask t (t.collect a)) ha
    rw [add_zero, add_zero]
    exact add_right_cancel (he.trans hf)
  case reply t hr      =>
    have he := found_erase hr.1
    split
    case isTrue =>
      refine ⟨0, s.result.getD 0, (add_zero _).symm, ?_, fun _ hn => by simp [hn]⟩
      rw [add_zero, ← he]
      simp only [State.found, Option.getD_some]
      abel
    case isFalse =>
      refine ⟨0, 0, (add_zero _).symm, ?_, fun _ _ => rfl⟩
      rw [add_zero, ← he]
      simp only [State.found, Multiset.map_cons, Multiset.sum_cons, Task.answer]
      abel

-- Whatever gets lost, nothing is found twice, and nothing is found that has not been contributed.
theorem found_le_step (h : s.found ≤ s.contributed) (e : s.step neighbors a = some s') :
    s'.found ≤ s'.contributed := by
  obtain ⟨gained, lost, hc, hf, -⟩ := found_step e
  rw [hc]
  calc s'.found ≤ s'.found + lost := le_add_right le_rfl
    _ = s.found + gained          := hf
    _ ≤ s.contributed + gained    := by gcongr

theorem awaiting_setTask (ht : t ∈ s.tasks) (hn : u.node = t.node) (hw : u.waiting = t.waiting) :
    (s.setTask t u).awaiting = s.awaiting := by
  obtain ⟨T, hT⟩ := Multiset.exists_cons_of_mem ht
  simp [State.awaiting, State.setTask, hT, hn, hw]

theorem awaiting_erase (ht : t ∈ s.tasks) :
    (t.node, t.waiting) ::ₘ (s.tasks.erase t).map (fun t => (t.node, t.waiting)) = s.awaiting := by
  obtain ⟨T, hT⟩ := Multiset.exists_cons_of_mem ht
  simp [State.awaiting, hT]

theorem mem_awaiting_self : (u.node, u.waiting) ∈ (s.setTask t u).awaiting :=
  Multiset.mem_map_of_mem (fun t : Task ν α β => (t.node, t.waiting)) (Multiset.mem_cons_self ..)

theorem mem_awaiting_setTask {ws : Finset ν} (ht : t ∈ s.tasks) (h : (v, ws) ∈ s.awaiting) :
    (v = t.node ∧ ws = t.waiting) ∨ (v, ws) ∈ (s.setTask t u).awaiting := by
  rw [← awaiting_erase ht, Multiset.mem_cons, Prod.mk.injEq] at h
  refine h.imp_right fun h => ?_
  rw [State.awaiting, State.setTask, Multiset.map_cons]
  exact Multiset.mem_cons_of_mem h

omit [DecidableEq ν] [DecidableEq α] [DecidableEq β] in
-- Where nobody waits for anything, tasks may come and go.
theorem Waits.congr (h : Waits G start s) (ha : s'.active = s.active)
    (hw : ∀ x, x.2.Nonempty → (x ∈ s'.awaiting ↔ x ∈ s.awaiting)) (hans : ∀ a ∈ s'.answers, a.origin ≠ a.node)
    (hr : s'.result = s.result) : Waits G start s' where
  awaited := by
    intro x hx
    refine (h.awaited x (ha ▸ hx)).imp_right ?_
    rintro ⟨ws, hm, hx⟩
    exact ⟨ws, (hw _ ⟨_, hx⟩).mpr hm, hx⟩
  waiting := by
    intro x hx w hm
    rw [ha]
    exact h.waiting x ((hw _ ⟨w, hm⟩).mp hx) w hm
  answers := hans
  result  := ha ▸ hr ▸ h.result

namespace Once

omit [DecidableEq ν] [DecidableEq α] [DecidableEq β] in
theorem nodup_active (h : Once G start s) : s.active.Nodup := by
  have hs : (s.sent.map fun r => (r.node, r.origin)).Nodup :=
    List.Nodup.of_map Prod.fst (by simpa [List.map_map, Function.comp_def] using h.spread.nodup)
  exact Multiset.nodup_of_le h.active (Multiset.coe_nodup.mpr hs)

theorem of_mem_awaiting (h : Once G start s) (ht : t ∈ s.tasks) {x : ν × Finset ν}
    (hx : x ∈ (s.setTask t u).awaiting) : x = (u.node, u.waiting) ∨ (x ∈ s.awaiting ∧ x.1 ≠ t.node) := by
  obtain ⟨y, hy, rfl⟩ := Multiset.mem_map.mp hx
  cases Multiset.mem_cons.mp hy
  case inl hy => exact .inl (hy ▸ rfl)
  case inr hy => exact .inr ⟨Multiset.mem_map_of_mem _ (Multiset.mem_of_mem_erase hy), h.node_ne ht hy⟩

omit [DecidableEq ν] [DecidableEq α] [DecidableEq β] in
-- Once the first node has answered, the others have done so before.
theorem quiet (h : Once G start s) (hw : Waits G start s) (hr : s.result ≠ none) : s.active = 0 := by
  have hstart := mt hw.result.mpr hr
  suffices H : ∀ rs, Spread G start rs → rs ⊆ s.sent → ∀ r ∈ rs, ∀ x ∈ s.active, x.1 ≠ r.node by
    refine Multiset.eq_zero_of_forall_notMem fun x hx => ?_
    obtain ⟨r, hr, rfl⟩ := h.exists_request hx
    exact H s.sent h.spread (List.Subset.refl _) r hr _ hx rfl
  intro rs hs
  -- The node which has asked has not answered before.
  induction hs
  case first content =>
    intro hsub r hr x hx he
    cases List.mem_singleton.mp hr
    obtain ⟨q, hq, rfl⟩ := h.exists_request hx
    have he := h.spread.eq_of_node hq (hsub List.mem_cons_self) he
    exact hstart (by simpa [he, Request.first] using hx)
  case ask rs r hs ho hnew hadj hi =>
    intro hsub q hq x hx he
    have hsub := List.cons_subset.mp hsub
    cases List.mem_cons.mp hq
    case inr hq => exact hi hsub.2 q hq x hx he
    case inl hq =>
      subst hq
      obtain ⟨q', hq', rfl⟩ := h.exists_request hx
      cases h.spread.eq_of_node hq' hsub.1 he
      obtain ⟨p, hp, hpn⟩ := List.mem_map.mp ho
      cases hw.awaited _ hx
      case inl hx =>
        have hx : q.node = start := hx
        exact hnew (hx ▸ hs.start_mem)
      case inr hx =>
        obtain ⟨ws, hm, -⟩ := hx
        obtain ⟨t, ht, hte⟩ := Multiset.mem_map.mp hm
        exact hi hsub.2 p hp _ (mem_active_task ht) ((congrArg Prod.fst hte).trans hpn.symm)

end Once

namespace Waits

theorem setTask (h : Waits G start s) (ht : t ∈ s.tasks) (hn : u.node = t.node) (ho : u.origin = t.origin)
    (hw : u.waiting = t.waiting) : Waits G start (s.setTask t u) :=
  h.congr (active_setTask ht hn ho) (fun x _ => by rw [awaiting_setTask ht hn hw]) h.answers rfl

omit [DecidableEq β] in
theorem receive {r : Request ν α} (h : Waits G start s) (hr : r ∈ s.requests) :
    Waits G start { s with requests := s.requests.erase r, tasks := r.task neighbors ::ₘ s.tasks } := by
  refine h.congr (active_receive hr) (fun x hx => ?_) h.answers rfl
  rw [State.awaiting, Multiset.map_cons, Multiset.mem_cons, or_iff_right, State.awaiting]
  rintro rfl
  simp [Request.task] at hx

theorem ask {content : α} (o : Once G start s) (h : Waits G start s) (ht : t ∈ s.tasks) (hw : w ∈ t.rest) :
    Waits G start { s.setTask t (t.ask w) with
      sent     := t.request w content :: s.sent
      requests := t.request w content ::ₘ s.requests } := by
  obtain ⟨hadj, -, -⟩ := o.rest t ht w hw
  have hactive : { s.setTask t (t.ask w) with
      sent     := t.request w content :: s.sent
      requests := t.request w content ::ₘ s.requests }.active = (w, t.node) ::ₘ s.active := by
    rw [← active_setTask (u := t.ask w) ht rfl rfl]
    simp only [State.active, Task.request, State.setTask, Multiset.map_cons, Multiset.cons_add]
  have hnew : (t.node, insert w t.waiting) ∈ (s.setTask t (t.ask w)).awaiting := mem_awaiting_self
  constructor
  case awaited =>
    intro x hx
    rw [hactive] at hx
    cases Multiset.mem_cons.mp hx
    case inl hx =>
      subst hx
      exact .inr ⟨_, hnew, Finset.mem_insert_self ..⟩
    case inr hx =>
      refine (h.awaited x hx).imp_right ?_
      rintro ⟨ws, hm, hx⟩
      cases mem_awaiting_setTask (u := t.ask w) ht hm
      case inl he => exact ⟨_, he.1 ▸ hnew, Finset.mem_insert_of_mem (he.2 ▸ hx)⟩
      case inr hm => exact ⟨ws, hm, hx⟩
  case waiting =>
    intro x hx y hy
    rw [hactive, Multiset.mem_cons]
    cases o.of_mem_awaiting (u := t.ask w) ht hx
    case inr hx => exact (h.waiting x hx.1 y hy).imp_right .inr
    case inl hx =>
      subst hx
      cases Finset.mem_insert.mp hy
      case inl hy =>
        subst hy
        exact ⟨hadj, .inl rfl⟩
      case inr hy => exact (h.waiting _ (Multiset.mem_map_of_mem _ ht) y hy).imp_right .inr
  case answers => exact h.answers
  case result =>
    have hne : (start, start) ≠ (w, t.node) := fun he => hadj.ne <|
      (congrArg Prod.snd he).symm.trans (congrArg Prod.fst he)
    rw [hactive, Multiset.mem_cons, or_iff_right hne]
    exact h.result

theorem deliver {a : Answer ν β} (o : Once G start s) (h : Waits G start s) (ha : a ∈ s.answers) (ht : t ∈ s.tasks)
    (hn : t.node = a.origin) : Waits G start { s.setTask t (t.collect a) with answers := s.answers.erase a } := by
  have hactive : (a.node, a.origin) ::ₘ { s.setTask t (t.collect a) with answers := s.answers.erase a }.active =
      s.active := by
    rw [← active_setTask (u := t.collect a) ht rfl rfl]
    obtain ⟨A, hA⟩ := Multiset.exists_cons_of_mem ha
    simp only [State.active, State.setTask, hA, Multiset.erase_cons_head, Multiset.map_cons, Multiset.add_cons]
  have hmem {x : ν × ν} (hx : x ∈ s.active) (hne : x ≠ (a.node, a.origin)) :
      x ∈ { s.setTask t (t.collect a) with answers := s.answers.erase a }.active :=
    (Multiset.mem_cons.mp (hactive ▸ hx)).resolve_left hne
  have hnodup : (a.node, a.origin) ∉ { s.setTask t (t.collect a) with answers := s.answers.erase a }.active :=
    (Multiset.nodup_cons.mp (hactive ▸ o.nodup_active)).1
  constructor
  case awaited =>
    intro x hx
    have hne : x ≠ (a.node, a.origin) := fun he => hnodup (he ▸ hx)
    refine (h.awaited x (hactive ▸ Multiset.mem_cons_of_mem hx)).imp_right ?_
    rintro ⟨ws, hm, hx⟩
    cases mem_awaiting_setTask (u := t.collect a) ht hm
    case inr hm => exact ⟨ws, hm, hx⟩
    case inl he =>
      -- The task waits for other answers, too.
      have hm : (x.2, t.waiting.erase a.node) ∈ (s.setTask t (t.collect a)).awaiting := he.1 ▸ mem_awaiting_self
      refine ⟨_, hm, Finset.mem_erase.mpr ⟨fun hxa => hne ?_, he.2 ▸ hx⟩⟩
      exact Prod.ext hxa (he.1.trans hn)
  case waiting =>
    intro x hx y hy
    cases o.of_mem_awaiting (u := t.collect a) ht hx
    case inr hx =>
      obtain ⟨hadj, hm⟩ := h.waiting x hx.1 y hy
      exact ⟨hadj, hmem hm fun he => hx.2 ((congrArg Prod.snd he).trans hn.symm)⟩
    case inl hx =>
      subst hx
      obtain ⟨hya, hy⟩ := Finset.mem_erase.mp hy
      obtain ⟨hadj, hm⟩ := h.waiting _ (Multiset.mem_map_of_mem _ ht) y hy
      exact ⟨hadj, hmem hm fun he => hya (congrArg Prod.fst he)⟩
  case answers => exact fun b hb => h.answers b (Multiset.mem_of_mem_erase hb)
  case result =>
    have hne : (start, start) ≠ (a.node, a.origin) := fun he => h.answers a ha <|
      (congrArg Prod.snd he).symm.trans (congrArg Prod.fst he)
    refine h.result.trans ?_
    rw [← hactive, Multiset.mem_cons, or_iff_right hne]

-- The answer of the first node.
theorem finish (o : Once G start s) (h : Waits G start s) (ht : t ∈ s.tasks) (hr : t.Ready) (hf : t.origin = t.node) :
    Waits G start { s with tasks := s.tasks.erase t, result := some t.found } := by
  obtain ⟨-, hwait, -⟩ := hr
  have hawait := awaiting_erase ht
  have hactive : (t.node, t.origin) ::ₘ { s with tasks := s.tasks.erase t, result := some t.found }.active =
      s.active := by
    obtain ⟨T, hT⟩ := Multiset.exists_cons_of_mem ht
    simp only [State.active, hT, Multiset.erase_cons_head, Multiset.map_cons, Multiset.add_cons, Multiset.cons_add]
  have hnodup : (t.node, t.origin) ∉ { s with tasks := s.tasks.erase t, result := some t.found }.active :=
    (Multiset.nodup_cons.mp (hactive ▸ o.nodup_active)).1
  obtain ⟨r, hr, hrn, hro⟩ := o.exists_sent ht
  have hstart : t.node = start := hrn ▸ o.spread.eq_first hr (hro.trans (hf.trans hrn.symm))
  constructor
  case awaited =>
    intro x hx
    refine (h.awaited x (hactive ▸ Multiset.mem_cons_of_mem hx)).imp_right ?_
    rintro ⟨ws, hm, hx⟩
    rw [← hawait, Multiset.mem_cons] at hm
    cases hm
    case inl he =>
      have he : ws = ∅ := (congrArg Prod.snd he).trans hwait
      simp [he] at hx
    case inr hm => exact ⟨ws, hm, hx⟩
  case waiting =>
    intro x hx y hy
    obtain ⟨hadj, hm⟩ := h.waiting x (hawait ▸ Multiset.mem_cons_of_mem hx) y hy
    refine ⟨hadj, (Multiset.mem_cons.mp (hactive ▸ hm)).resolve_left fun he => hadj.ne ?_⟩
    exact (congrArg Prod.snd he).trans (hf.trans (congrArg Prod.fst he).symm)
  case answers => exact h.answers
  case result =>
    rw [hf, hstart] at hnodup
    exact iff_of_false (by simp) hnodup

theorem step (o : Once G start s) (h : Waits G start s) (hf : ¬ a.Fault) (e : s.step neighbors a = some s') :
    Waits G start s' := by
  cases a <;> simp only [State.step] at e <;> split at e <;> cases e
  case receive hr     => exact h.receive hr
  case ask ht         => exact h.ask o ht.1 ht.2
  case skip ht        => exact h.setTask ht.1 rfl rfl rfl
  case begin ht       => exact h.setTask ht.1 rfl rfl rfl
  case finish t b ht  =>
    have hw := h.setTask (u := t.finish b) ht.1 rfl rfl rfl
    exact ⟨hw.awaited, hw.waiting, hw.answers, hw.result⟩
  case deliver hd     => exact h.deliver o hd.1 hd.2.1 hd.2.2.1
  case reply t ht     =>
    split
    case isTrue hs  => exact h.finish o ht.1 ht.2 hs
    case isFalse hs =>
      refine h.congr (active_reply ht.1) (fun x hx => ?_) (fun a ha => ?_) rfl
      · rw [← awaiting_erase ht.1, Multiset.mem_cons, or_iff_right]
        · rfl
        · rintro rfl
          simp [ht.2.2.1] at hx
      · cases Multiset.mem_cons.mp ha
        case inl ha => exact ha ▸ hs
        case inr ha => exact h.answers a ha
  all_goals exact absurd trivial hf

end Waits

theorem not_step_of_quiet (h : s.active = 0) (hf : ¬ a.Fault) (e : s.step neighbors a = some s') : False := by
  have htask {t : Task ν α β} (ht : t ∈ s.tasks) : False := by simpa [h] using mem_active_task ht
  cases a <;> simp only [State.step] at e <;> split at e <;> try contradiction
  case receive r hr => simpa [h] using mem_active_request hr
  case ask ht       => exact htask ht.1
  case skip ht      => exact htask ht.1
  case begin ht     => exact htask ht.1
  case finish ht    => exact htask ht.1
  case reply ht     => exact htask ht.1
  case deliver hd   => exact htask hd.2.1
  all_goals exact absurd trivial hf

-- A contribution is made by a node which has been asked and has not contributed before.
theorem pending_step (hf : ¬ a.Fault) (h : s.pending + s.made.map Prod.fst = (s.sent.map Request.node : List ν))
    (e : s.step neighbors a = some s') : s'.pending + s'.made.map Prod.fst = (s'.sent.map Request.node : List ν) := by
  cases a <;> simp only [State.step] at e <;> split at e <;> cases e
  case receive hr => exact pending_receive hr ▸ h
  case ask t w c ht =>
    have hp := pending_setTask (s := s) (u := t.ask w) ht.1 rfl Iff.rfl
    rw [List.map_cons, ← Multiset.cons_coe, ← h, ← hp]
    simp [State.pending, Task.request, State.setTask]
  case skip t w ht => exact (pending_setTask (s := s) (u := t.skip w) ht.1 rfl Iff.rfl) ▸ h
  case begin t ht => exact (pending_setTask (s := s) (u := { t with own := .running }) ht.1 rfl (by simp [ht.2])) ▸ h
  case finish t b ht =>
    refine Eq.trans ?_ h
    rw [← pending_finish (b := b) ht.1 ht.2]
    simp [State.pending, State.setTask]
  case deliver a t hd =>
    have hp := pending_setTask (s := s) (u := t.collect a) hd.2.1 rfl Iff.rfl
    exact hp ▸ h
  case reply t ht =>
    obtain ⟨T, hT⟩ := Multiset.exists_cons_of_mem ht.1
    have hp : { s with tasks := s.tasks.erase t }.pending = s.pending := by
      simp [State.pending, hT, ht.2.2.2]
    split <;> exact hp ▸ h
  all_goals exact absurd trivial hf

theorem Complete.step (o : Once G start s) (h : Complete G start s) (hf : ¬ a.Fault)
    (e : s.step neighbors a = some s') : Complete G start s' where
  found   := by
    -- An act is only possible as long as there is no result.
    have hr : s.result = none := by
      by_contra hr
      exact not_step_of_quiet (o.quiet h.waits hr) hf e
    obtain ⟨gained, lost, hc, hg, hl⟩ := found_step e
    rw [hl hf hr, add_zero] at hg
    rw [hg, hc, h.found]
  pending := pending_step hf h.pending e
  waits   := h.waits.step o hf e
end Echo
