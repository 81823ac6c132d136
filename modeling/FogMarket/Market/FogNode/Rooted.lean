import FogMarket.Market.FogNode.Serve

open Transition Hierarchy

namespace Market.FogNode

variable {nodes nodes' nodes₀ nodes₁ nodes₂ : FogNode} {node : Node NodeRecord} {record : NodeRecord}
variable {root parent child p x : NodeId} {r : Request}

def IsTree (nodes : FogNode) : Prop :=
  Rooted nodes.keys nodes.parent nodes.children

-- Registers an id which is not registered yet, or does nothing because the parent is not registered.
-- The root may be registered again as long as it is alone.
def Clean (nodes : FogNode) (r : Request) : Prop :=
  match r.call with
  | .appendRoot root ..             => root ∉ nodes ∨ nodes.keys = {root}
  | .appendNewChild parent child .. => parent ∉ nodes ∨ child ∉ nodes
  | .update ..                      => True

instance : Decidable (nodes.Clean r) :=
  match r with
  | ⟨_, .appendRoot root ..⟩             => inferInstanceAs (Decidable (root ∉ nodes ∨ nodes.keys = {root}))
  | ⟨_, .appendNewChild parent child ..⟩ => inferInstanceAs (Decidable (parent ∉ nodes ∨ child ∉ nodes))
  | ⟨_, .update ..⟩                      => inferInstanceAs (Decidable True)

namespace IsTree

theorem mem_children (t : nodes.IsTree) (h : nodes.parent x = some p) : x ∈ nodes.children p :=
  Rooted.mem_children t (Finmap.mem_keys.mpr (mem_of_parent h)) h

theorem parent_mem (t : nodes.IsTree) (h : nodes.parent x = some p) : p ∈ nodes :=
  mem_of_mem_children (t.mem_children h)

theorem listed (t : nodes.IsTree) (h : x ∈ nodes.children p) : x ∈ nodes ∧ nodes.parent x = some p := by
  have := Rooted.listed t p (Finmap.mem_keys.mpr (mem_of_mem_children h)) x h
  rwa [Finmap.mem_keys] at this

theorem exists_root (t : nodes.IsTree) : ∃ x ∈ nodes, nodes.parent x = none := by
  have ⟨x, ⟨hm, hn⟩, _⟩ := t.root
  exact ⟨x, Finmap.mem_keys.mp hm, hn⟩

theorem root_unique (t : nodes.IsTree) {y : NodeId} (hx : x ∈ nodes) (hx' : nodes.parent x = none)
    (hy : y ∈ nodes) (hy' : nodes.parent y = none) : x = y :=
  t.root.unique ⟨Finmap.mem_keys.mpr hx, hx'⟩ ⟨Finmap.mem_keys.mpr hy, hy'⟩

theorem parent_ne_self (t : nodes.IsTree) : nodes.parent x ≠ some x :=
  fun h => Rooted.parent_ne_self t (Finmap.mem_keys.mpr (mem_of_parent h)) h

theorem accepted (t : nodes.IsTree) : nodes.Accepted := by
  have ⟨x, hm, hn⟩ := t.exists_root
  refine ⟨x, ?_, ?_⟩
  case refine_1 =>
    ext y
    simp only [mem_roots, Finset.mem_singleton]
    exact ⟨fun ⟨hy, hy'⟩ => t.root_unique hy hy' hm hn, fun h => h ▸ ⟨hm, hn⟩⟩
  case refine_2 =>
    intro z hz y hb
    rw [List.mem_singleton.mp hz] at hb
    exact {
      mem    := Finmap.mem_keys.mp (Rooted.below_mem t (Finmap.mem_keys.mpr hm) hb)
      listed := fun c hc => (t.listed hc).1
      placed := fun c hc p hp => Option.some.inj (hp.symm.trans (t.listed hc).2)
    }

theorem append (t : nodes.IsTree) (record : NodeRecord) (hp : nodes.lookup parent = some node)
    (hc : child ∉ nodes) :
    (nodes.append parent node child record).IsTree := by
  refine Rooted.addLeaf (p := parent) (c := child) t (Finmap.mem_keys.mpr (Map.mem_of_lookup hp))
    (mt Finmap.mem_keys.mp hc) ?_ (fun x => parent_append hp) (fun x _ => children_append hp)
  simp only [Finmap.mem_keys]
  exact fun x => mem_append hp

theorem singleton (root : NodeId) (h : ∀ x, x ∈ nodes ↔ x = root) (hp : nodes.parent root = none)
    (hc : nodes.children root = []) : nodes.IsTree := by
  have hk {x} : x ∈ nodes.keys ↔ x = root := by rw [Finmap.mem_keys, h]
  constructor
  case root        => exact ⟨root, ⟨hk.mpr rfl, hp⟩, fun x hx => hk.mp hx.1⟩
  case parent_mem  => intro x hx p h; simp [hk.mp hx, hp] at h
  case listed_once => intro x hx p h; simp [hk.mp hx, hp] at h
  case listed      => intro x hx c h; simp [hk.mp hx, hc] at h
  case reachable   => intro x hx _ y hy; rw [hk.mp hx, hk.mp hy]

theorem update {record : NodeRecord} (t : nodes.IsTree) : (nodes.update x record).IsTree := by
  have hk : (nodes.update x record).keys = nodes.keys := by
    ext
    simp only [Finmap.mem_keys, mem_update]
  have hp : (nodes.update x record).parent = nodes.parent := funext fun _ => parent_update
  have hc : (nodes.update x record).children = nodes.children := funext fun _ => children_update
  rw [IsTree, hk, hp, hc]
  exact t

-- Registering a registered node as a child is never undone properly: either the node is still listed
-- by its former parent, or the root is lost.
theorem not_append (t : nodes.IsTree) (hp : nodes.lookup parent = some node) (hc : child ∈ nodes) :
    ¬(nodes.append parent node child record).IsTree := by
  intro t'
  have hm := Map.mem_of_lookup hp
  cases hq : nodes.parent child
  case none =>
    have ⟨x, hx, hn⟩ := t'.exists_root
    rw [parent_append hp] at hn
    split at hn
    case isTrue      => contradiction
    case isFalse hxc =>
      have := (mem_append hp).mp hx |>.resolve_left hxc
      exact hxc (t.root_unique this hn hc hq)
  case some q =>
    have hl := t.mem_children hq
    have hqc : q ≠ child := fun he => t.parent_ne_self (he ▸ hq)
    have hl' : child ∈ (nodes.append parent node child record).children q := by
      rw [children_append hp, if_neg hqc]
      split
      case isTrue  => simp
      case isFalse => exact hl
    have hpar := (t'.listed hl').2
    rw [parent_append hp, if_pos rfl] at hpar
    cases hpar
    -- The node is registered again under the same parent, and listed twice.
    have hone := Rooted.listed_once t' child (Finmap.mem_keys.mpr ((mem_append hp).mpr (.inl rfl)))
      parent (by rw [parent_append hp, if_pos rfl])
    have hold := Rooted.listed_once t child (Finmap.mem_keys.mpr hc) parent hq
    rw [children_append hp, if_neg hqc, if_pos rfl, List.count_append, hold] at hone
    simp at hone

theorem not_undo (t : nodes.IsTree) (hp : nodes.lookup parent = some node) (hc : child ∈ nodes) :
    ¬(nodes.undo parent node child).IsTree := by
  intro t'
  have hmem {x} : x ∈ nodes.undo parent node child ↔ x ≠ child ∧ (x = parent ∨ x ∈ nodes) := by
    simp [undo, Finmap.mem_erase]
  have hpar {x} (hx : x ≠ child) : (nodes.undo parent node child).parent x = nodes.parent x := by
    rw [parent_undo hp, if_neg hx]
  cases hq : nodes.parent child
  case none =>
    obtain ⟨x, hx, hn⟩ := t'.exists_root
    obtain ⟨hxc, hx⟩ := hmem.mp hx
    rw [hpar hxc] at hn
    have : x ∈ nodes := hx.elim (fun he => he ▸ Map.mem_of_lookup hp) id
    exact hxc (t.root_unique this hn hc hq)
  case some q =>
    have hl := t.mem_children hq
    have hqc : q ≠ child := fun he => t.parent_ne_self (he ▸ hq)
    have hl' : child ∈ (nodes.undo parent node child).children q := by
      rw [children, lookup_undo, if_neg hqc]
      split
      case isTrue he =>
        rw [he, children_of_lookup hp] at hl
        simp only [Option.elim_some]
        cases hcs : node.children
        case nil      => simp [hcs] at hl
        case cons y l => simp
      case isFalse => exact hl
    exact (hmem.mp (t'.listed hl').1).1 rfl

theorem not_insert_root (hr : root ∈ nodes) (hk : nodes.keys ≠ {root}) :
    ¬IsTree (nodes.insert root (fresh none record)) := by
  intro t'
  obtain ⟨x, hx, hxr⟩ : ∃ x ∈ nodes, x ≠ root := by
    by_contra hn
    push Not at hn
    refine hk (Finset.ext fun x => ?_)
    simp only [Finmap.mem_keys, Finset.mem_singleton]
    exact ⟨hn x, fun h => h ▸ hr⟩
  -- Nothing is found below a root without children.
  have hb := t'.reachable root (by simp [Finmap.mem_keys]) (by simp [parent_insert, fresh]) x
    (by simp [Finmap.mem_keys, hx])
  cases Relation.ReflTransGen.cases_head hb
  case inl he => exact hxr he.symm
  case inr h' =>
    obtain ⟨y, hy, _⟩ := h'
    simp [ListsChild, children_insert, fresh] at hy

theorem not_erase (t : nodes.IsTree) (hr : root ∈ nodes)
    (hn : ∃ x ∈ nodes, nodes.parent x = none ∧ x ≠ root) : ¬IsTree (nodes.erase root) := by
  intro t'
  have ⟨x, hx, hx', hne⟩ := hn
  cases hq : nodes.parent root
  case none   => exact hne (t.root_unique hx hx' hr hq)
  case some q =>
    have hqr : q ≠ root := fun he => t.parent_ne_self (he ▸ hq)
    have hl : root ∈ children (nodes.erase root) q := by
      rw [children_erase, if_neg hqr]
      exact t.mem_children hq
    exact absurd (t'.listed hl).1 (by simp [Finmap.mem_erase])

-- A call leaves a tree behind if and only if it is clean.
theorem step_iff (t : nodes.IsTree) (h : nodes.step r = some nodes') :
    nodes'.IsTree ↔ nodes.Clean r := by
  obtain ⟨⟨outcome, _⟩, ho, he⟩ := Option.map_eq_some_iff.mp h
  cases he
  match r with
  | ⟨fuel, .appendRoot root ip portHttp portFaas tags⟩ =>
    simp only [Clean]
    by_cases hr : root ∈ nodes
    case neg =>
      simp only [hr, not_false_eq_true, true_or, iff_true]
      obtain ⟨x, hx, hx'⟩ := t.exists_root
      have hne : x ≠ root := fun he => hr (he ▸ hx)
      rcases appendRoot_spec ho with ⟨hu, _⟩ | ⟨_, _, rfl⟩
      · exact absurd (hu x hx hx') hne
      · exact (Map.erase_of_notMem hr).symm ▸ t
    case pos =>
      simp only [hr, not_true_eq_false, false_or]
      rcases appendRoot_spec ho with ⟨_, _, rfl⟩ | ⟨hn, _, rfl⟩
      · constructor
        · exact fun t' => by_contra fun hk => not_insert_root hr hk t'
        · intro hk
          refine singleton root (fun x => ?_) ?_ ?_
          · rw [← Finmap.mem_keys, Map.keys_insert, hk]
            simp
          · simp [parent_insert, fresh]
          · simp [children_insert, fresh]
      · have hk : nodes.keys ≠ {root} := by
          obtain ⟨x, hx, _, hne⟩ := hn
          exact fun hk => hne (Finset.mem_singleton.mp (hk ▸ Finmap.mem_keys.mpr hx))
        exact iff_of_false (t.not_erase hr hn) hk
  | ⟨fuel, .appendNewChild parent child ip portHttp portFaas tags⟩ =>
    simp only [Clean]
    rcases appendNewChild_spec ho with ⟨hm, _, rfl⟩ | ⟨node, hp, hs⟩
    case inl => exact iff_of_true t (.inl hm)
    case inr =>
      have hm := Map.mem_of_lookup hp
      by_cases hc : child ∈ nodes
      case neg =>
        have t' := t.append (NodeRecord.new ip portHttp portFaas tags) hp hc
        rcases hs with ⟨_, _, rfl⟩ | ⟨hn, _⟩
        · exact iff_of_true t' (.inr hc)
        · exact absurd t'.accepted hn
      case pos =>
        refine iff_of_false ?_ (by simp [hm, hc])
        rcases hs with ⟨_, _, rfl⟩ | ⟨_, _, _, rfl⟩
        · exact t.not_append hp hc
        · split
          case isTrue  => exact t.not_append hp hc
          case isFalse => exact t.not_undo hp hc
  | ⟨fuel, .update id record⟩ =>
    cases ho
    exact iff_of_true t.update trivial

end IsTree

-- The request is the registration of a root, and is accepted.
def Founds (nodes : FogNode) (r : Request) (nodes' : FogNode) : Prop :=
  (∃ root ip portHttp portFaas tags, r.call = .appendRoot root ip portHttp portFaas tags) ∧
    nodes.serve r.fuel r.call = some (.ok, nodes')

def Unfounded (nodes : FogNode) (r : Request) : Prop :=
  ∀ nodes', ¬nodes.Founds r nodes'

-- Nothing is registered before the first root.
theorem eq_empty_of_unfounded {before : List Request} (h : Run step Unfounded ∅ before nodes) :
    nodes = ∅ := by
  refine h.invariant (I := (· = ∅)) rfl ?_
  rintro _ r nodes' rfl hu hs
  have ⟨⟨outcome, _⟩, ho, he⟩ := Option.map_eq_some_iff.mp hs
  cases he
  match r with
  | ⟨fuel, .appendRoot root ip portHttp portFaas tags⟩ =>
    rcases appendRoot_spec ho with ⟨_, rfl, _⟩ | ⟨⟨x, hx, _⟩, _⟩
    · exact absurd ⟨⟨root, ip, portHttp, portFaas, tags, rfl⟩, ho⟩ (hu _)
    · exact absurd hx Finmap.notMem_empty
  | ⟨fuel, .appendNewChild parent child ip portHttp portFaas tags⟩ =>
    have ho : appendNewChild fuel ∅ parent child ip portHttp portFaas tags = some (outcome, _) := ho
    cases appendNewChild_spec ho
    case inl h' =>
      have ⟨_, _, he⟩ := h'
      exact he
    case inr h' =>
      have ⟨node, hp, _⟩ := h'
      simp at hp
  | ⟨fuel, .update id record⟩ =>
    cases ho
    simp [update]

-- The first registration of a root is accepted.
theorem founds_of_step {ip : IpAddr} {portHttp portFaas : BitVec 16} {tags : List String}
    (hc : r.call = .appendRoot root ip portHttp portFaas tags) (h : step ∅ r = some nodes) :
    Founds ∅ r nodes := by
  have ⟨⟨outcome, _⟩, ho, he⟩ := Option.map_eq_some_iff.mp h
  cases he
  refine ⟨⟨root, ip, portHttp, portFaas, tags, hc⟩, ?_⟩
  have ho' := ho
  rw [hc] at ho'
  rcases appendRoot_spec ho' with ⟨_, rfl, _⟩ | ⟨⟨x, hx, _⟩, _⟩
  · exact ho
  · exact absurd hx Finmap.notMem_empty

theorem Founds.isTree (h : Founds ∅ r nodes) : nodes.IsTree := by
  have ⟨⟨root, ip, portHttp, portFaas, tags, hc⟩, hs⟩ := h
  rw [hc] at hs
  rcases appendRoot_spec hs with ⟨_, _, rfl⟩ | ⟨⟨x, hx, _⟩, _⟩
  · refine IsTree.singleton root (fun x => ?_) ?_ ?_
    · rw [Finmap.mem_insert, or_iff_left Finmap.notMem_empty]
    · simp [parent_insert, fresh]
    · simp [children_insert, fresh]
  · exact absurd hx Finmap.notMem_empty

theorem acyclic_of_run {ok : FogNode → Request → Prop} {rs : List Request}
    (h : nodes.Acyclic) (r : Run step ok nodes rs nodes') : nodes'.Acyclic :=
  r.invariant h fun h _ hs => acyclic_step h hs

theorem acyclic_empty : Acyclic ∅ :=
  ⟨fun _ => 0, fun _ _ h => by simp [children] at h⟩

-- A run over a tree meets only trees if and only if all of its calls are clean.
theorem run_iff {rs : List Request} (t : nodes.IsTree) (h : Run step free nodes rs nodes') :
    (∀ rs' nodes'', rs' <+: rs → Run step free nodes rs' nodes'' → nodes''.IsTree) ↔
      Run step Clean nodes rs nodes' := by
  induction h
  case refl =>
    refine ⟨fun _ => .refl, fun _ rs' nodes'' hp r => ?_⟩
    cases List.prefix_nil.mp hp
    cases r
    exact t
  case trans nodes₁ nodes₂ _ a as _ e _ hi =>
    constructor
    case mp =>
      intro H
      have t₂ := H [a] nodes₂ (by simp) (.single trivial e)
      refine .trans (t.step_iff e |>.mp t₂) e (hi t₂ |>.mp ?_)
      exact fun rs' nodes'' hp r => H (a :: rs') nodes'' (by simpa using hp) (.trans trivial e r)
    case mpr =>
      intro r rs' nodes'' hp r'
      cases r
      case trans hc e' r =>
        cases e.symm.trans e'
        have t₂ := t.step_iff e |>.mpr hc
        cases r'
        case refl => exact t
        case trans b bs _ e'' r' =>
          have ⟨hb, hbs⟩ := List.cons_prefix_cons.mp hp
          cases hb
          cases e.symm.trans e''
          exact hi t₂ |>.mpr r _ _ hbs r'

-- After the first root has been accepted, every call returns, and the registry stays a rooted tree
-- exactly as long as every call is clean.
theorem rooted_iff_clean {before after : List Request} {first : Request}
    (hb : Run step Unfounded ∅ before nodes₀) (hf : nodes₀.Founds first nodes₁)
    (ha : Run step free nodes₁ after nodes₂) :
    (∀ call, ∃ fuel, ∀ m ≥ fuel, ∃ res, nodes₂.serve m call = some res) ∧
    ((∀ after' nodes, after' <+: after → Run step free nodes₁ after' nodes → nodes.IsTree) ↔
      Run step Clean nodes₁ after nodes₂) := by
  cases eq_empty_of_unfounded hb
  have hs : step ∅ first = some nodes₁ := by simp [step, hf.2]
  have hac := acyclic_of_run (acyclic_step acyclic_empty hs) ha
  exact ⟨serve_ends hac, run_iff hf.isTree ha⟩

def Request.ofRoot (root : Uuid) : Request where
  fuel := 8
  call := .appendRoot ⟨root⟩ (.v4 0) 80 8080 []

def Request.ofChild (parent child : Uuid) : Request where
  fuel := 8
  call := .appendNewChild ⟨parent⟩ ⟨child⟩ (.v4 0) 80 8080 []

theorem rooted_iff_clean_of_three :
    ∃ nodes₁ nodes₂, Run step free nodes₁ [.ofChild 1 2, .ofChild 2 3] nodes₂ ∧
      ∀ after' nodes, after' <+: [.ofChild 1 2, .ofChild 2 3] → Run step free nodes₁ after' nodes →
        nodes.IsTree := by
  have ⟨nodes₂, r⟩ : ∃ s, Run step Clean ∅ [.ofRoot 1, .ofChild 1 2, .ofChild 2 3] s :=
    Run.of_exec_isSome (by decide +kernel)
  cases r
  case trans nodes₁ _ e r =>
    exact ⟨nodes₁, nodes₂, r.toFree,
      (rooted_iff_clean .refl (founds_of_step rfl e) r.toFree).2.mpr r⟩

-- A node which is registered again under its parent is listed twice.
theorem not_rooted_of_child_twice :
    ∃ nodes₁ nodes₂, Founds ∅ (.ofRoot 1) nodes₁ ∧
      Run step free nodes₁ [.ofChild 1 2, .ofChild 1 2] nodes₂ ∧ ¬nodes₂.IsTree := by
  have ⟨nodes₂, r, hl⟩ : ∃ s, Run step free ∅ [.ofRoot 1, .ofChild 1 2, .ofChild 1 2] s ∧
      s.children ⟨1⟩ = [⟨2⟩, ⟨2⟩] :=
    Run.of_exec_any (by decide +kernel)
  cases r
  case trans nodes₁ _ e r =>
    refine ⟨nodes₁, nodes₂, founds_of_step rfl e, r, fun t => ?_⟩
    have ⟨hm, hp⟩ := t.listed (p := ⟨1⟩) (x := ⟨2⟩) (by rw [hl]; simp)
    have ho := t.listed_once _ (Finmap.mem_keys.mpr hm) _ hp
    rw [hl] at ho
    contradiction

end Market.FogNode
