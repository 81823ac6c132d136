import Mathlib.Data.List.Lookmap
import Mathlib.Data.List.Nodup
import Mathlib.Data.List.Perm.Basic

-- A map which keeps its keys in the order in which they have been inserted.
structure Dict (κ ν : Type*) where
  entries : List (κ × ν)
  nodup   : (entries.map Prod.fst).Nodup

namespace Dict

variable {κ ν α : Type*} [DecidableEq κ]

def empty : Dict κ ν where
  entries := []
  nodup   := List.nodup_nil

def keys (d : Dict κ ν) : List κ :=
  d.entries.map Prod.fst

def get (d : Dict κ ν) (k : κ) : Option ν :=
  d.entries.lookup k

def modifyEntries (k : κ) (f : Option ν → ν) : List (κ × ν) → List (κ × ν)
  | []              => [(k, f none)]
  | (k', v) :: rest => if k' = k then (k', f (some v)) :: rest else (k', v) :: modifyEntries k f rest

variable {entries : List (κ × ν)} {k k' : κ} {v : ν} {f : Option ν → ν} {d : Dict κ ν}

theorem mem_keys_modifyEntries :
    k' ∈ (modifyEntries k f entries).map Prod.fst ↔ k' = k ∨ k' ∈ entries.map Prod.fst := by
  induction entries
  case nil => simp [modifyEntries]
  case cons e rest hi =>
    rw [modifyEntries]
    split
    case isTrue h => simp [h]
    case isFalse =>
      rw [List.map_cons, List.mem_cons, hi, List.map_cons, List.mem_cons]
      exact or_left_comm

theorem nodup_modifyEntries (h : (entries.map Prod.fst).Nodup) :
    ((modifyEntries k f entries).map Prod.fst).Nodup := by
  induction entries
  case nil => simp [modifyEntries]
  case cons e rest hi =>
    have ⟨hn, hr⟩ := List.nodup_cons.mp h
    rw [modifyEntries]
    split
    case isTrue => exact h
    case isFalse hk =>
      apply List.nodup_cons.mpr
      constructor
      case left =>
        intro hm
        exact (mem_keys_modifyEntries.mp hm).elim hk hn
      case right => exact hi hr

theorem lookup_cons {e : κ × ν} : (e :: entries).lookup k = if k = e.1 then some e.2 else entries.lookup k := by
  have ⟨k', v⟩ := e
  rw [List.lookup_cons]
  by_cases h : k = k'
  case pos => simp [h]
  case neg => simp [h, beq_eq_false_iff_ne.mpr h]

theorem lookup_modifyEntries :
    (modifyEntries k f entries).lookup k' = if k' = k then some (f (entries.lookup k)) else entries.lookup k' := by
  induction entries
  case nil => simp [modifyEntries, lookup_cons]
  case cons e rest hi =>
    rw [modifyEntries]
    split
    case isTrue h =>
      subst h
      simp only [lookup_cons]
      split
      all_goals simp
    case isFalse h =>
      simp only [lookup_cons, hi, if_neg (Ne.symm h)]
      split
      case isTrue hk => rw [if_neg fun he => h (hk.symm.trans he)]
      case isFalse => rfl

theorem lookup_of_notMem (h : k ∉ entries.map Prod.fst) : entries.lookup k = none := by
  apply List.lookup_eq_none_iff.mpr
  intro e he
  have hk : k ≠ e.1 := fun hk => h (hk ▸ List.mem_map_of_mem he)
  simpa using hk

theorem mem_iff_lookup (h : (entries.map Prod.fst).Nodup) : (k, v) ∈ entries ↔ entries.lookup k = some v := by
  induction entries
  case nil => simp
  case cons e rest hi =>
    have ⟨hn, hr⟩ := List.nodup_cons.mp h
    rw [List.mem_cons, hi hr, lookup_cons]
    split
    case isTrue he =>
      subst he
      simp [lookup_of_notMem hn, Prod.ext_iff, eq_comm]
    case isFalse he => simp [Prod.ext_iff, he]

-- A new key is put at the end.
def modify (d : Dict κ ν) (k : κ) (f : Option ν → ν) : Dict κ ν where
  entries := modifyEntries k f d.entries
  nodup   := nodup_modifyEntries d.nodup

def set (d : Dict κ ν) (k : κ) (v : ν) : Dict κ ν :=
  d.modify k fun _ => v

-- The values are lists, which are empty for the keys which are missing.
def append (d : Dict κ (List α)) (k : κ) (a : α) : Dict κ (List α) :=
  d.modify k fun l => l.getD [] ++ [a]

theorem get_modify : (d.modify k f).get k' = if k' = k then some (f (d.get k)) else d.get k' :=
  lookup_modifyEntries

@[simp]
theorem get_set : (d.set k v).get k' = if k' = k then some v else d.get k' :=
  get_modify

theorem mem_entries_iff : (k, v) ∈ d.entries ↔ d.get k = some v :=
  mem_iff_lookup d.nodup

theorem mem_keys_iff : k ∈ d.keys ↔ ∃ v, d.get k = some v := by
  rw [keys, List.mem_map]
  constructor
  case mp =>
    intro ⟨e, he, hk⟩
    exact ⟨e.2, mem_entries_iff.mp (hk ▸ he)⟩
  case mpr => exact fun ⟨v, hv⟩ => ⟨(k, v), mem_entries_iff.mpr hv, rfl⟩

theorem filter_eq_singleton (h : (entries.map Prod.fst).Nodup) (hm : (k, v) ∈ entries) :
    entries.filter (·.1 = k) = [(k, v)] := by
  induction entries
  case nil => cases hm
  case cons e rest hi =>
    have ⟨hn, hr⟩ := List.nodup_cons.mp h
    rw [List.mem_cons] at hm
    cases hm
    case inl he =>
      subst he
      rw [List.filter_cons_of_pos (by simp), List.filter_eq_nil_iff.mpr]
      intro e he
      have hk : e.1 ≠ k := fun hk => hn (List.mem_map.mpr ⟨e, he, hk⟩)
      simpa using hk
    case inr hm =>
      have hk : e.1 ≠ k := fun hk => hn (List.mem_map.mpr ⟨(k, v), hm, hk.symm⟩)
      rw [List.filter_cons_of_neg (by simpa using hk), hi hr hm]

theorem filter_entries (h : d.get k = some v) : d.entries.filter (·.1 = k) = [(k, v)] :=
  filter_eq_singleton d.nodup (mem_entries_iff.mpr h)

theorem modifyEntries_of_notMem (h : k ∉ entries.map Prod.fst) :
    modifyEntries k f entries = entries ++ [(k, f none)] := by
  induction entries
  case nil => rfl
  case cons e rest hi =>
    rw [List.map_cons, List.mem_cons, not_or] at h
    rw [modifyEntries, if_neg (Ne.symm h.left), hi h.right, List.cons_append]

-- New keys are put at the end, in their order.
theorem entries_foldl_set {l : List (κ × ν)} (h : (d.keys ++ l.map Prod.fst).Nodup) :
    (l.foldl (fun d e => d.set e.1 e.2) d).entries = d.entries ++ l := by
  induction l generalizing d
  case nil => simp
  case cons e l hi =>
    have hn : e.1 ∉ d.keys := by
      intro hm
      exact List.disjoint_of_nodup_append h hm (.head _)
    have he : (d.set e.1 e.2).entries = d.entries ++ [e] := modifyEntries_of_notMem hn
    have hk : (d.set e.1 e.2).keys = d.keys ++ [e.1] := by rw [keys, he, List.map_append]; rfl
    rw [List.foldl_cons, hi (by simpa [hk] using h), he, List.append_assoc, List.singleton_append]

section Groups

variable {l l' : List (κ × α)} {a : α} {d d' : Dict κ (List α)}

-- What is listed for a key.
def values (l : List (κ × α)) (k : κ) : List α :=
  (l.filter (·.1 = k)).map Prod.snd

-- The values of the dictionary are what is listed for its keys, of which none is listed without a value.
def Groups (d : Dict κ (List α)) (l : List (κ × α)) : Prop :=
  ∀ k, d.get k = if values l k = [] then none else some (values l k)

def flatten (d : Dict κ (List α)) : List (κ × α) :=
  d.entries.flatMap fun e => e.2.map (e.1, ·)

-- Each value of another dictionary is appended.
def merge (d d' : Dict κ (List α)) : Dict κ (List α) :=
  d'.entries.foldl (fun d e => e.2.foldl (fun d a => d.append e.1 a) d) d

theorem values_append : values (l ++ l') k = values l k ++ values l' k := by
  simp [values]

theorem mem_values : a ∈ values l k ↔ (k, a) ∈ l := by
  simp [values]

theorem values_singleton : values [(k', a)] k = if k' = k then [a] else [] := by
  simp only [values, List.filter_singleton]
  split
  all_goals simp_all

theorem length_values : (values l k).length = (l.map Prod.fst).count k := by
  rw [values, List.length_map, List.count_eq_length_filter, List.filter_map, List.length_map]
  rfl

theorem count_values [DecidableEq α] : (values l k).count a = l.count (k, a) := by
  induction l
  case nil => rfl
  case cons e l hi =>
    rw [← List.singleton_append, values_append, List.count_append, List.count_append, hi, values_singleton]
    split
    case isTrue he => simp [List.count_singleton, Prod.ext_iff, he]
    case isFalse he => simp [Prod.ext_iff, he]

theorem values_pairs {as : List α} : values (as.map (k', ·)) k = if k' = k then as else [] := by
  split
  case isTrue h => simp [values, h, List.filter_map, Function.comp_def]
  case isFalse h => simp [values, h]

theorem values_flatMap {entries : List (κ × List α)} (h : (entries.map Prod.fst).Nodup) :
    values (entries.flatMap fun e => e.2.map (e.1, ·)) k = (entries.lookup k).getD [] := by
  induction entries
  case nil => rfl
  case cons e rest hi =>
    have ⟨hn, hr⟩ := List.nodup_cons.mp h
    rw [List.flatMap_cons, values_append, values_pairs, hi hr, lookup_cons]
    split
    case isTrue he =>
      subst he
      simp [lookup_of_notMem hn]
    case isFalse he => simp [Ne.symm he]

theorem values_flatten : values d.flatten k = (d.get k).getD [] :=
  values_flatMap d.nodup

theorem groups_empty : Groups (empty : Dict κ (List α)) [] :=
  fun _ => rfl

theorem Groups.values_flatten (h : Groups d l) : values d.flatten k = values l k := by
  rw [Dict.values_flatten, h k]
  split
  case isTrue he => simp [he]
  case isFalse => rfl

theorem Groups.congr (h : Groups d l) (hv : ∀ k, values l k = values l' k) : Groups d l' := by
  intro k
  rw [← hv k]
  exact h k

theorem Groups.append (h : Groups d l) : Groups (d.append k a) (l ++ [(k, a)]) := by
  intro k'
  have hk : ((d.get k).getD [] ++ [a]) = values l k ++ [a] := by rw [← Dict.values_flatten, h.values_flatten]
  rw [Dict.append, get_modify, values_append, values_singleton, hk]
  split
  case isTrue he => simp [he]
  case isFalse he => simp [Ne.symm he, h k']

theorem Groups.mem_keys (h : Groups d l) : k ∈ d.keys ↔ ∃ a, (k, a) ∈ l := by
  simp only [mem_keys_iff, h k, ← mem_values]
  split
  case isTrue he => simp [he]
  case isFalse he => simpa using List.exists_mem_of_ne_nil _ he

theorem Groups.get_eq_some {as : List α} (h : Groups d l) (hg : d.get k = some as) : ∀ a, a ∈ as ↔ (k, a) ∈ l := by
  intro a
  rw [h k] at hg
  split at hg
  case isTrue => cases hg
  case isFalse =>
    cases hg
    exact mem_values

theorem Groups.foldl (h : Groups d l) : Groups (l'.foldl (fun d e => d.append e.1 e.2) d) (l ++ l') := by
  induction l' generalizing d l
  case nil => simpa using h
  case cons e l' hi =>
    rw [List.foldl_cons, ← List.singleton_append, ← List.append_assoc]
    exact hi h.append

theorem merge_eq : d.merge d' = d'.flatten.foldl (fun d e => d.append e.1 e.2) d := by
  simp only [merge, flatten, List.foldl_flatMap, List.foldl_map]

theorem Groups.merge (h : Groups d l) (h' : Groups d' l') : Groups (d.merge d') (l ++ l') := by
  rw [merge_eq]
  apply (h.foldl).congr
  intro k
  rw [values_append, values_append, h'.values_flatten]

theorem Groups.perm [DecidableEq α] (h : Groups d l) : d.flatten.Perm l := by
  rw [List.perm_iff_count]
  intro (k, a)
  rw [← count_values, ← count_values, h.values_flatten]

theorem Groups.mem_entries {as : List α} (h : Groups d l) : (k, as) ∈ d.entries ↔ as ≠ [] ∧ as = values l k := by
  rw [mem_entries_iff, h k]
  split
  case isTrue he => simp [he]
  case isFalse he =>
    rw [Option.some.injEq]
    constructor
    case mp => exact fun hv => ⟨hv ▸ he, hv.symm⟩
    case mpr => exact fun hv => hv.right.symm

end Groups

end Dict
