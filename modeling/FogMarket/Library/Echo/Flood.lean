import FogMarket.Library.Flooding
import FogMarket.Library.Echo.Progress

open SimpleGraph Transition Flooding

namespace Echo

variable {ν α β : Type*} {G : SimpleGraph ν} {start v w x : ν} {s s' : State ν α β} {t u : Task ν α β}
variable {r : Request ν α} {rs : List (Request ν α)} {a b c : α}
variable {act : Act ν α β} {acts : List (Act ν α β)} {content : α}
variable {forward : ν → ν → α → Option α} {bid : ν → α → Option β} {neighbors : ν → Finset ν}

def Task.received (t : Task ν α β) : Request ν α where
  node    := t.node
  origin  := t.origin
  content := t.content

-- `w` has been asked what follows from `r`, or there is nothing to be asked.
def Passed (forward : ν → ν → α → Option α) (s : State ν α β) (r : Request ν α) (w : ν) : Prop :=
  forward r.node w r.content = none ∨
    ∃ q ∈ s.sent, q.node = w ∧ q.origin = r.node ∧ forward r.node w r.content = some q.content

-- What is known about the requests and the contributions when everyone follows the rules.
structure Traced (forward : ν → ν → α → Option α) (bid : ν → α → Option β) (neighbors : ν → Finset ν) (start : ν)
    (content : α) (s : State ν α β) : Prop where
  first    : .first start content ∈ s.sent
  requests : ∀ r ∈ s.requests, r ∈ s.sent
  tasks    : ∀ t ∈ s.tasks, t.received ∈ s.sent
  made     : ∀ x ∈ s.made, ∃ r ∈ s.sent, r.node = x.1 ∧ x.2 = bid r.node r.content
  carried  : ∀ r ∈ s.sent, r = .first start content ∨
    ∃ q ∈ s.sent, q.node = r.origin ∧ forward q.node r.node q.content = some r.content
  passed   : ∀ r ∈ s.sent, r ∉ s.requests → ∀ w ∈ neighbors r.node, w ≠ r.origin →
    (∃ t ∈ s.tasks, t.node = r.node ∧ w ∈ t.rest) ∨ Passed forward s r w

theorem traced_start : Traced forward bid neighbors start content (.start start content) where
  first    := List.mem_singleton_self _
  requests := by simp [State.start]
  tasks    := by simp [State.start]
  made     := by simp [State.start]
  carried  := fun r hr => .inl (List.mem_singleton.mp hr)
  passed   := by simp [State.start]

theorem carries_concat {p : G.Walk v w} (h : Carries forward p a b) (hadj : G.Adj w x) (hf : forward w x b = some c) :
    Carries forward (p.concat hadj) a c := by
  induction p generalizing a
  case nil =>
    cases h
    exact ⟨c, hf, rfl⟩
  case cons hi =>
    obtain ⟨d, hd, h⟩ := h
    exact ⟨d, hd, hi h hadj hf⟩

-- A request has arrived on the path which leads from the first node.
theorem Spread.exists_carries (hs : Spread G start s.sent) (h : Traced forward bid neighbors start content s)
    (hrs : Spread G start rs) (hsub : rs ⊆ s.sent) (hr : r ∈ rs) : ∃ p : G.Walk start r.node, p.IsPath ∧
      (∀ x ∈ p.support, x ∈ rs.map Request.node) ∧ Carries forward p content r.content := by
  induction hrs generalizing r
  case first c =>
    cases List.mem_singleton.mp hr
    refine ⟨.nil, .nil, by simp [Request.first], ?_⟩
    have he := hs.eq_of_node h.first (hsub List.mem_cons_self) rfl
    exact congrArg Request.content he
  case ask rs r' hrs ho hnew hadj hi =>
    have hsub' := List.cons_subset.mp hsub
    cases List.mem_cons.mp hr
    case inr hr =>
      obtain ⟨p, hp, hsup, hc⟩ := hi hsub'.2 hr
      exact ⟨p, hp, fun x hx => List.mem_cons_of_mem _ (hsup x hx), hc⟩
    case inl hr =>
      subst hr
      cases h.carried r hsub'.1
      case inl he =>
        have hn : r.node = start := he ▸ rfl
        exact absurd (hn ▸ hrs.start_mem) hnew
      case inr hq =>
        obtain ⟨q, hq, hqn, hf⟩ := hq
        obtain ⟨q', hq', hqn'⟩ := List.mem_map.mp ho
        cases hs.eq_of_node hq (hsub'.2 hq') (hqn.trans hqn'.symm)
        obtain ⟨p, hp, hsup, hc⟩ := hi hsub'.2 hq'
        have hadj : G.Adj q.node r.node := hqn ▸ hadj
        refine ⟨p.concat hadj, hp.concat (fun hm => hnew (hsup _ hm)) hadj, fun x hx => ?_, carries_concat hc hadj hf⟩
        rw [Walk.support_concat, List.mem_append, List.mem_singleton] at hx
        cases hx
        case inl hx => exact List.mem_cons_of_mem _ (hsup x hx)
        case inr hx => exact hx ▸ List.mem_cons_self

-- Once all requests have been passed on, everything has been asked that can be reached.
theorem Traced.exists_sent (hn : ∀ v w, w ∈ neighbors v ↔ G.Adj v w)
    (h : Traced forward bid neighbors start content s) (hreq : s.requests = 0) (htasks : s.tasks = 0) (hr : r ∈ s.sent)
    {p : G.Walk v x} (hv : r.node = v) (hp : p.IsPath) (ho : s(v, r.origin) ∉ p.edges)
    (hc : Carries forward p r.content b) : ∃ q ∈ s.sent, q.node = x ∧ q.content = b := by
  induction p generalizing r
  case nil => exact ⟨r, hr, hv, hc⟩
  case cons v w x hadj p hi =>
    subst hv
    obtain ⟨c, hf, hc⟩ := hc
    have hne : w ≠ r.origin := by
      rintro rfl
      simp at ho
    cases h.passed r hr (by simp [hreq]) w ((hn _ _).mpr hadj) hne
    case inl ht =>
      obtain ⟨t, ht, -⟩ := ht
      simp [htasks] at ht
    case inr hpass =>
      cases hpass
      case inl hnone => simp [hf] at hnone
      case inr hq =>
        obtain ⟨q, hq, hqn, hqo, hqf⟩ := hq
        obtain ⟨hp, hnot⟩ := (Walk.cons_isPath_iff hadj p).mp hp
        refine hi hq hqn hp (fun hm => hnot ?_) (Option.some.inj (hf.symm.trans hqf) ▸ hc)
        exact Walk.snd_mem_support_of_mem_edges p (hqo ▸ hm)

theorem passed_of_subset (h : Passed forward s r w) (hsub : s.sent ⊆ s'.sent) : Passed forward s' r w := by
  refine h.imp_right ?_
  rintro ⟨q, hq, hrest⟩
  exact ⟨q, hsub hq, hrest⟩

namespace Traced

-- An act which does not make new requests.
theorem congr (h : Traced forward bid neighbors start content s) (hs : s'.sent = s.sent)
    (hreq : s'.requests ≤ s.requests) (ht : ∀ u ∈ s'.tasks, u.received ∈ s.sent)
    (hm : ∀ x ∈ s'.made, ∃ r ∈ s.sent, r.node = x.1 ∧ x.2 = bid r.node r.content)
    (hp : ∀ r ∈ s.sent, r ∉ s'.requests → ∀ w ∈ neighbors r.node, w ≠ r.origin →
      (∃ t ∈ s'.tasks, t.node = r.node ∧ w ∈ t.rest) ∨ Passed forward s r w) :
    Traced forward bid neighbors start content s' where
  first    := hs ▸ h.first
  requests := fun r hr => hs ▸ h.requests r (Multiset.mem_of_le hreq hr)
  tasks    := hs ▸ ht
  made     := hs ▸ hm
  carried  := hs ▸ h.carried
  passed   := fun r hr hn w hw ho =>
    (hp r (hs ▸ hr) hn w hw ho).imp_right (passed_of_subset · (hs ▸ List.Subset.refl _))

variable [DecidableEq ν] [DecidableEq α] [DecidableEq β]

-- A task goes on without asking anyone.
theorem setTask (h : Traced forward bid neighbors start content s) (ht : t ∈ s.tasks) (hr : u.received = t.received)
    (hrest : u.rest = t.rest) : Traced forward bid neighbors start content (s.setTask t u) := by
  refine h.congr rfl le_rfl (fun t₀ ht₀ => ?_) h.made fun r hm hn w hw ho => (h.passed r hm hn w hw ho).imp_left ?_
  case refine_1 =>
    cases mem_setTask ht₀
    case inl he => exact he ▸ hr ▸ h.tasks t ht
    case inr hm => exact h.tasks t₀ hm
  case refine_2 =>
    rintro ⟨t₀, ht₀, hn, hw⟩
    by_cases he : t₀ = t
    case neg => exact ⟨t₀, Multiset.mem_cons_of_mem ((Multiset.mem_erase_of_ne he).mpr ht₀), hn, hw⟩
    case pos =>
      have hnode : u.node = t.node := congrArg Request.node hr
      exact ⟨u, Multiset.mem_cons_self .., hnode.trans (he ▸ hn), hrest ▸ he ▸ hw⟩

omit [DecidableEq β] in
theorem receive (h : Traced forward bid neighbors start content s) (hm : r ∈ s.requests) :
    Traced forward bid neighbors start content
      { s with requests := s.requests.erase r, tasks := r.task neighbors ::ₘ s.tasks } := by
  refine h.congr rfl (Multiset.erase_le ..) (fun t ht => ?_) h.made fun q hq hn w hw ho => ?_
  case refine_1 =>
    cases Multiset.mem_cons.mp ht
    case inl ht => exact ht ▸ h.requests r hm
    case inr ht => exact h.tasks t ht
  case refine_2 =>
    by_cases hqr : q = r
    case pos => exact .inl ⟨_, Multiset.mem_cons_self .., hqr ▸ rfl, hqr ▸ Finset.mem_erase.mpr ⟨ho, hw⟩⟩
    case neg =>
      refine (h.passed q hq (fun hm => hn ((Multiset.mem_erase_of_ne hqr).mpr hm)) w hw ho).imp_left ?_
      rintro ⟨t, ht, hrest⟩
      exact ⟨t, Multiset.mem_cons_of_mem ht, hrest⟩

-- What a task has left to do, apart from one neighbor which it has dealt with.
theorem passed_erase (o : Once G start s) (h : Traced forward bid neighbors start content s) (ht : t ∈ s.tasks)
    (hn : u.node = t.node) (hrest : u.rest = t.rest.erase v) (hr : r ∈ s.sent) (hreq : r ∉ s.requests)
    (hw : w ∈ neighbors r.node) (ho : w ≠ r.origin) : (∃ t₀ ∈ (s.setTask t u).tasks, t₀.node = r.node ∧ w ∈ t₀.rest) ∨
      Passed forward s r w ∨ (r = t.received ∧ w = v) := by
  cases h.passed r hr hreq w hw ho
  case inr hp => exact .inr (.inl hp)
  case inl ht₀ =>
    obtain ⟨t₀, ht₀, hnode, hmem⟩ := ht₀
    by_cases he : t₀ = t
    case neg => exact .inl ⟨t₀, Multiset.mem_cons_of_mem ((Multiset.mem_erase_of_ne he).mpr ht₀), hnode, hmem⟩
    case pos =>
      subst he
      by_cases hwv : w = v
      case pos => exact .inr (.inr ⟨o.spread.eq_of_node hr (h.tasks t₀ ht) hnode.symm, hwv⟩)
      case neg =>
        exact .inl ⟨u, Multiset.mem_cons_self .., hn.trans hnode, hrest ▸ Finset.mem_erase.mpr ⟨hwv, hmem⟩⟩

theorem ask (o : Once G start s) (h : Traced forward bid neighbors start content s) (ht : t ∈ s.tasks)
    (hf : forward t.node w t.content = some c) : Traced forward bid neighbors start content
      { s.setTask t (t.ask w) with
        sent     := t.request w c :: s.sent
        requests := t.request w c ::ₘ s.requests } where
  first    := List.mem_cons_of_mem _ h.first
  requests := by
    intro r hr
    cases Multiset.mem_cons.mp hr
    case inl hr => exact hr ▸ List.mem_cons_self
    case inr hr => exact List.mem_cons_of_mem _ (h.requests r hr)
  tasks    := by
    intro t₀ ht₀
    refine List.mem_cons_of_mem _ ?_
    cases Multiset.mem_cons.mp ht₀
    case inl he => exact he ▸ h.tasks t ht
    case inr hm => exact h.tasks t₀ (Multiset.mem_of_mem_erase hm)
  made     := by
    intro x hx
    obtain ⟨r, hr, hrest⟩ := h.made x hx
    exact ⟨r, List.mem_cons_of_mem _ hr, hrest⟩
  carried  := by
    intro r hr
    cases List.mem_cons.mp hr
    case inl hr => exact .inr ⟨t.received, List.mem_cons_of_mem _ (h.tasks t ht), hr ▸ rfl, hr ▸ hf⟩
    case inr hr =>
      refine (h.carried r hr).imp_right ?_
      rintro ⟨q, hq, hrest⟩
      exact ⟨q, List.mem_cons_of_mem _ hq, hrest⟩
  passed   := by
    intro r hr hreq x hx ho
    obtain ⟨hne, hreq⟩ := not_or.mp (mt Multiset.mem_cons.mpr hreq)
    have hr := (List.mem_cons.mp hr).resolve_left hne
    obtain hp | hp | ⟨rfl, rfl⟩ := h.passed_erase (u := t.ask w) o ht rfl rfl hr hreq hx ho
    · exact .inl hp
    · exact .inr (passed_of_subset hp (List.subset_cons_self ..))
    · exact .inr (.inr ⟨_, List.mem_cons_self, rfl, rfl, hf⟩)

theorem step (o : Once G start s) (h : Traced forward bid neighbors start content s)
    (hf : Follows forward bid s act) (e : s.step neighbors act = some s') :
    Traced forward bid neighbors start content s' := by
  cases act <;> simp only [State.step] at e <;> split at e <;> cases e
  case receive hr     => exact h.receive hr
  case ask ht         => exact h.ask o ht.1 hf
  case begin ht       => exact h.setTask ht.1 rfl rfl
  case skip t w ht    =>
    refine h.congr rfl le_rfl (fun t₀ ht₀ => ?_) h.made fun r hr hreq x hx ho => ?_
    case refine_1 =>
      cases mem_setTask ht₀
      case inl he => exact he ▸ h.tasks t ht.1
      case inr hm => exact h.tasks t₀ hm
    case refine_2 =>
      obtain hp | hp | ⟨rfl, rfl⟩ := h.passed_erase (u := t.skip w) o ht.1 rfl rfl hr hreq hx ho
      · exact .inl hp
      · exact .inr hp
      · exact .inr (.inl hf)
  case finish t b ht  =>
    have h' := h.setTask (u := t.finish b) ht.1 rfl rfl
    refine h'.congr rfl le_rfl h'.tasks (fun x hx => ?_) h'.passed
    cases Multiset.mem_cons.mp hx
    case inl hx => exact ⟨t.received, h.tasks t ht.1, hx ▸ rfl, hx ▸ hf⟩
    case inr hx => exact h.made x hx
  case deliver a t hd =>
    have h' := h.setTask (u := t.collect a) hd.2.1 rfl rfl
    exact h'.congr rfl le_rfl h'.tasks h'.made h'.passed
  case reply t ht     =>
    have h' : Traced forward bid neighbors start content { s with tasks := s.tasks.erase t } := by
      refine h.congr rfl le_rfl (fun t₀ ht₀ => h.tasks t₀ (Multiset.mem_of_mem_erase ht₀)) h.made ?_
      intro r hr hreq w hw ho
      refine (h.passed r hr hreq w hw ho).imp_left ?_
      rintro ⟨t₀, ht₀, hn, hw⟩
      -- The task which answers has nobody left to ask.
      have hne : t₀ ≠ t := by
        rintro rfl
        simp [ht.2.1] at hw
      exact ⟨t₀, (Multiset.mem_erase_of_ne hne).mpr ht₀, hn, hw⟩
    split <;> exact h'.congr rfl le_rfl h'.tasks h'.made h'.passed
  all_goals exact absurd hf id

end Traced

-- What everyone contributes is determined by what has been asked.
theorem made_eq (o : Once G start s) (h : Traced forward bid neighbors start content s)
    (hm : s.made.map Prod.fst = (s.sent.map Request.node : List ν)) :
    s.made = (s.sent.map fun r => (r.node, bid r.node r.content) : List (ν × Option β)) := by
  have hmade : s.made.Nodup := .of_map Prod.fst (hm ▸ Multiset.coe_nodup.mpr o.spread.nodup)
  have hsent : (s.sent.map fun r => (r.node, bid r.node r.content)).Nodup :=
    .of_map Prod.fst (by simpa [List.map_map, Function.comp_def] using o.spread.nodup)
  refine (Multiset.Nodup.ext hmade (Multiset.coe_nodup.mpr hsent)).mpr fun x => ?_
  rw [Multiset.mem_coe, List.mem_map]
  constructor
  case mp =>
    intro hx
    obtain ⟨r, hr, hn, hb⟩ := h.made x hx
    exact ⟨r, hr, Prod.ext hn hb.symm⟩
  case mpr =>
    rintro ⟨r, hr, rfl⟩
    have hmem : r.node ∈ s.made.map Prod.fst := hm ▸ Multiset.mem_coe.mpr (List.mem_map_of_mem hr)
    obtain ⟨x, hx, hxn⟩ := Multiset.mem_map.mp hmem
    obtain ⟨q, hq, hqn, hb⟩ := h.made x hx
    cases o.spread.eq_of_node hq hr (hqn.trans hxn)
    have he : x = (r.node, bid r.node r.content) := Prod.ext hxn hb
    exact he ▸ hx

variable [DecidableEq ν]

-- The requests are those of the flood.
theorem sent_eq {adj : ν → List ν} {fuel : ℕ} {l : List (ν × α)} (hG : G.IsAcyclic)
    (hn : ∀ v w, w ∈ neighbors v ↔ G.Adj v w) (hadj : ∀ v w, w ∈ adj v ↔ G.Adj v w) (hd : ∀ v, (adj v).Nodup)
    (o : Once G start s) (h : Traced forward bid neighbors start content s) (hreq : s.requests = 0)
    (htasks : s.tasks = 0) (hl : flood adj forward fuel start start content = some l) :
    (s.sent.map fun r => (r.node, r.content)).Perm l := by
  have hsent : (s.sent.map fun r => (r.node, r.content)).Nodup :=
    .of_map Prod.fst (by simpa [List.map_map, Function.comp_def] using o.spread.nodup)
  refine (List.perm_ext_iff_of_nodup hsent (.of_map Prod.fst (nodup_flood hG hadj hd hl))).mpr fun x => ?_
  rw [mem_flood_self hG hadj hl, List.mem_map]
  constructor
  case mp =>
    rintro ⟨r, hr, rfl⟩
    obtain ⟨p, hp, -, hc⟩ := o.spread.exists_carries h o.spread (List.Subset.refl _) hr
    exact ⟨p, hp, hc⟩
  case mpr =>
    rintro ⟨p, hp, hc⟩
    have ho : s(start, start) ∉ p.edges := fun he => (p.adj_of_mem_edges he).ne rfl
    obtain ⟨q, hq, hqn, hqc⟩ := h.exists_sent hn hreq htasks h.first rfl hp ho hc
    exact ⟨q, hq, Prod.ext hqn hqc⟩

variable [DecidableEq α] [DecidableEq β]

theorem traced_run (hG : G.IsAcyclic) (hn : ∀ v w, w ∈ neighbors v ↔ G.Adj v w)
    (r : Runs neighbors (Follows forward bid) start content acts s) :
    (Once G start s ∧ Complete G start s) ∧ Traced forward bid neighbors start content s := by
  refine r.invariant (I := fun s => (Once G start s ∧ Complete G start s) ∧
    Traced forward bid neighbors start content s) ⟨⟨once_start, complete_start⟩, traced_start⟩ fun h ho e => ?_
  have hf := not_fault_of_follows ho
  exact ⟨⟨h.1.1.step hG hn e, h.1.2.step h.1.1 hf e⟩, h.2.step h.1.1 ho e⟩

-- In whatever order requests and answers arrive, the result is the one which is found by asking the nodes
-- one after the other.
theorem result_eq_flood {adj : ν → List ν} {fuel : ℕ} {l : List (ν × α)} {m : Multiset β} (hG : G.IsAcyclic)
    (hn : ∀ v w, w ∈ neighbors v ↔ G.Adj v w) (hadj : ∀ v w, w ∈ adj v ↔ G.Adj v w) (hd : ∀ v, (adj v).Nodup)
    (r : Runs neighbors (Follows forward bid) start content acts s) (hr : s.result = some m)
    (hl : flood adj forward fuel start start content = some l) : m = (l.filterMap fun x => bid x.1 x.2 : List β) := by
  obtain ⟨⟨o, h⟩, ht⟩ := traced_run hG hn r
  obtain ⟨hm, hmade⟩ := result_eq o h hr
  obtain ⟨hreq, htasks, -⟩ := o.nothing_left h.waits (by simp [hr])
  have hperm := (sent_eq hG hn hadj hd o ht hreq htasks hl).filterMap fun x => bid x.1 x.2
  rw [hm, State.contributed, made_eq o ht hmade, Multiset.filterMap_coe, List.filterMap_map,
    ← Multiset.coe_eq_coe.mpr hperm, List.filterMap_map]
  rfl

end Echo
