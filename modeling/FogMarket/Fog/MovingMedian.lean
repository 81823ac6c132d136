import FogMarket.Library.Median
import FogMarket.Library.Window
import Mathlib.Algebra.Order.Field.Rat

-- The third-party `skiplist`, as the code uses it: `σ` is a skip list of values of type `τ`.
structure OrderedSkipList (σ τ : Type _) where
  withCapacity : Nat → σ
  insert       : τ → σ → σ
  remove       : τ → σ → Option σ
  get          : σ → Nat → Option τ
  toList       : σ → List τ

-- What is assumed of it: it is a sorted multiset and `remove` deletes one of the equal values.
structure OrderedSkipList.Lawful {σ τ : Type _} [LinearOrder τ] (list : OrderedSkipList σ τ) : Prop where
  sorted              : ∀ s, (list.toList s).Pairwise (· ≤ ·)
  toList_withCapacity : ∀ n, list.toList (list.withCapacity n) = []
  toList_insert       : ∀ v s, (list.toList (list.insert v s)).Perm (v :: list.toList s)
  toList_remove       : ∀ v s s', list.remove v s = some s' → (list.toList s).Perm (v :: list.toList s')
  remove_of_mem       : ∀ v s, v ∈ list.toList s → (list.remove v s).isSome
  get_eq              : ∀ s i, list.get s i = (list.toList s)[i]?

-- A skip list which is a sorted list.
def OrderedSkipList.ofSorted (τ : Type _) [LinearOrder τ] :
    OrderedSkipList { l : List τ // l.Pairwise (· ≤ ·) } τ where
  withCapacity _ := ⟨[], .nil⟩
  insert v s     := ⟨s.val.orderedInsert (· ≤ ·) v, s.property.orderedInsert v s.val⟩
  remove v s     := if v ∈ s.val then some ⟨s.val.erase v, s.property.sublist List.erase_sublist⟩ else none
  get s i        := s.val[i]?
  toList s       := s.val

theorem OrderedSkipList.Lawful.ofSorted (τ : Type _) [LinearOrder τ] : (OrderedSkipList.ofSorted τ).Lawful where
  sorted s              := s.property
  toList_withCapacity _ := rfl
  toList_insert v s     := List.perm_orderedInsert (· ≤ ·) v s.val
  toList_remove v s s' h := by
    simp only [OrderedSkipList.ofSorted, Option.ite_none_right_eq_some, Option.some.injEq] at h
    have ⟨hm, he⟩ := h
    subst he
    exact List.perm_cons_erase hm
  remove_of_mem v s h   := by
    simp only [OrderedSkipList.ofSorted] at h ⊢
    simp [h]
  get_eq _ _            := rfl

structure RingOrderedSkipList (σ τ : Type _) where
  ring       : List τ
  windowSize : Nat
  cursor     : Nat
  skiplist   : σ

structure MovingMedianSize where
  size  : Nat
  valid : 4 ≤ size

structure MovingMedian (σ τ : Type _) where
  window : RingOrderedSkipList σ τ

-- The ring and the skip list both hold the values of the window.
structure RingOrderedSkipList.Holds {σ τ : Type _} (list : OrderedSkipList σ τ) (ring : RingOrderedSkipList σ τ)
    (values : List τ) : Prop where
  window   : Window ring.windowSize ring.ring ring.cursor values
  start    : ring.ring.length < ring.windowSize → ring.cursor = 0
  skiplist : (list.toList ring.skiplist).Perm (values.rtake ring.windowSize)

-- The window has the values `content`, in ascending order.
structure MovingMedian.HasContent {σ τ : Type _} (list : OrderedSkipList σ τ) (median : MovingMedian σ τ)
    (content : List τ) : Prop where
  ring     : median.window.ring.length = content.length
  skiplist : list.toList median.window.skiplist = content

section

variable {σ τ : Type _} (list : OrderedSkipList σ τ)

namespace RingOrderedSkipList

def withSize (windowSize : Nat) : RingOrderedSkipList σ τ where
  ring       := []
  windowSize := windowSize
  cursor     := 0
  skiplist   := list.withCapacity windowSize

-- Is `none` if it panics: because of the `unwrap` of what has been removed or an index outside of the ring.
def insert (self : RingOrderedSkipList σ τ) (value : τ) : Option (RingOrderedSkipList σ τ) :=
  if self.ring.length = self.windowSize then
    match self.ring[self.cursor]? with
    | some old =>
      (list.remove old self.skiplist).map fun skiplist =>
        { self with
          ring     := self.ring.set self.cursor value
          cursor   := (self.cursor + 1) % self.windowSize
          skiplist := list.insert value skiplist }
    | none => none
  else
    some { self with ring := self.ring ++ [value], skiplist := list.insert value self.skiplist }

def getOrdered (self : RingOrderedSkipList σ τ) (index : Nat) : Option τ :=
  list.get self.skiplist index

def len (self : RingOrderedSkipList σ τ) : Nat :=
  self.ring.length

end RingOrderedSkipList

namespace MovingMedian

def new (size : MovingMedianSize) : MovingMedian σ τ where
  window := .withSize list size.size

def update (self : MovingMedian σ τ) (value : τ) : Option (MovingMedian σ τ) :=
  (self.window.insert list value).map (⟨·⟩)

def getUneven (self : MovingMedian σ τ) (index : Nat) : Option τ :=
  self.window.getOrdered list index

variable [Add τ] [Div τ] [OfNat τ 2]

def getEven (self : MovingMedian σ τ) (index1 index2 : Nat) : Option τ :=
  match self.window.getOrdered list index1, self.window.getOrdered list index2 with
  | none, none           => none
  | none, some med       => some med
  | some med, none       => some med
  | some mid1, some mid2 => some ((mid1 + mid2) / 2)

def q1 (self : MovingMedian σ τ) : Option τ :=
  let len := self.window.len
  if len < 4 then
    none
  else
    let index1 := len / 4
    match len % 4 with
    | 0 | 1 => self.getEven list index1 (index1 - 1)
    | _     => self.getUneven list index1

def q3 (self : MovingMedian σ τ) : Option τ :=
  let len := self.window.len
  if len < 4 then
    none
  else
    let index1 := len * 3 / 4
    match len % 4 with
    | 0 | 1 => self.getEven list index1 (index1 - 1)
    | _     => self.getUneven list index1

def median (self : MovingMedian σ τ) : Option τ :=
  let len := self.window.len
  if len < 4 then
    none
  else
    let index := len / 2
    match len % 2 with
    | 0 => self.getEven list (index - 1) index
    | _ => self.getUneven list index

def interquantileRange [Sub τ] (self : MovingMedian σ τ) : Option τ :=
  match self.q1 list, self.q3 list with
  | some q1, some q3 => some (q3 - q1)
  | _, _             => none

-- The median after one update for each of the values.
def updates (size : MovingMedianSize) (values : List τ) : Option (MovingMedian σ τ) :=
  values.foldlM (update list) (new list size)

end MovingMedian

end

namespace RingOrderedSkipList

open scoped List

variable {σ τ : Type _} [LinearOrder τ] {list : OrderedSkipList σ τ} {self : RingOrderedSkipList σ τ}
variable {values : List τ} {value : τ} {n : Nat}

theorem Holds.withSize (lawful : list.Lawful) (h : 0 < n) : Holds list (RingOrderedSkipList.withSize list n) [] where
  window   := .empty h
  start _  := rfl
  skiplist := by simp [RingOrderedSkipList.withSize, lawful.toList_withCapacity]

-- While the ring is filling, nothing is removed.
theorem Holds.insert_push (lawful : list.Lawful) (h : Holds list self values)
    (hl : self.ring.length < self.windowSize) :
    ∃ self', self.insert list value = some self' ∧ self'.windowSize = self.windowSize ∧
      Holds list self' (values ++ [value]) := by
  have hc := h.start hl
  refine ⟨_, if_neg hl.ne, rfl, ?_, ?_, ?_⟩
  case refine_1 => exact h.window.push hl h.window.cursor_lt fun _ => hc
  case refine_2 => exact fun _ => hc
  case refine_3 =>
    have hv := h.window.history_lt hl
    have hp := h.skiplist
    rw [Window.rtake_of_length_le hv.le] at hp
    rw [Window.rtake_of_length_le (by simpa using Nat.succ_le_of_lt hv)]
    calc list.toList (list.insert value self.skiplist)
      _ ~ value :: list.toList self.skiplist := lawful.toList_insert ..
      _ ~ value :: values                    := hp.cons value
      _ ~ values ++ [value]                  := (List.perm_append_singleton value values).symm

-- Once it is filled, the value at the cursor is the oldest of the window. The skip list has it, and loses it.
theorem Holds.insert_overwrite (lawful : list.Lawful) (h : Holds list self values)
    (hl : self.ring.length = self.windowSize) :
    ∃ self', self.insert list value = some self' ∧ self'.windowSize = self.windowSize ∧
      Holds list self' (values ++ [value]) := by
  have ⟨old, ho, hr⟩ := h.window.oldest hl
  have hp := h.skiplist
  rw [hr] at hp
  have hm : old ∈ list.toList self.skiplist := hp.mem_iff.mpr List.mem_cons_self
  have ⟨rest, hrest⟩ := Option.isSome_iff_exists.mp (lawful.remove_of_mem old self.skiplist hm)
  have hi : self.insert list value = some { self with
      ring     := self.ring.set self.cursor value
      cursor   := (self.cursor + 1) % self.windowSize
      skiplist := list.insert value rest } := by
    simp [insert, hl, ho, hrest]
  refine ⟨_, hi, rfl, h.window.overwrite hl, ?_, ?_⟩
  case refine_1 => simp [hl]
  case refine_2 =>
    have hd := ((lawful.toList_remove _ _ _ hrest).symm.trans hp).cons_inv
    have hs := Nat.zero_lt_of_lt h.window.cursor_lt
    calc list.toList (list.insert value rest)
      _ ~ value :: list.toList rest                        := lawful.toList_insert ..
      _ ~ value :: values.rtake (self.windowSize - 1)      := hd.cons value
      _ ~ values.rtake (self.windowSize - 1) ++ [value]    := (List.perm_append_singleton ..).symm
      _ ~ (values ++ [value]).rtake self.windowSize        := by rw [Window.rtake_concat hs]

theorem Holds.insert (lawful : list.Lawful) (h : Holds list self values) (value : τ) :
    ∃ self', self.insert list value = some self' ∧ self'.windowSize = self.windowSize ∧
      Holds list self' (values ++ [value]) := by
  obtain hl | hl := lt_or_eq_of_le (h.window.length_eq.trans_le (min_le_left _ _))
  case inl => exact h.insert_push lawful hl
  case inr => exact h.insert_overwrite lawful hl

omit [LinearOrder τ] in
theorem Holds.len (h : Holds list self values) : self.len = (list.toList self.skiplist).length :=
  h.window.length_eq.trans (h.skiplist.length_eq.trans Window.length_rtake).symm

end RingOrderedSkipList

namespace MovingMedian

variable {σ τ : Type _} [LinearOrder τ] {list : OrderedSkipList σ τ} {self : MovingMedian σ τ}
variable {size : MovingMedianSize} {values content : List τ} {a b : τ} {i j : Nat}

theorem updates_holds (lawful : list.Lawful) (size : MovingMedianSize) (values : List τ) :
    ∃ self, updates list size values = some self ∧ self.window.windowSize = size.size ∧
      self.window.Holds list values := by
  induction values using List.reverseRecOn
  case nil =>
    exact ⟨_, rfl, rfl, .withSize lawful (Nat.zero_lt_of_lt size.valid)⟩
  case append_singleton values value hi =>
    have ⟨self, hs, hw, hh⟩ := hi
    have ⟨window, hi, hw', hh'⟩ := hh.insert lawful value
    refine ⟨⟨window⟩, ?_, hw'.trans hw, hh'⟩
    rw [updates, List.foldlM_append, ← updates, hs]
    simp [update, hi]

namespace HasContent

theorem getOrdered (lawful : list.Lawful) (c : self.HasContent list content) :
    self.window.getOrdered list i = content[i]? := by
  rw [RingOrderedSkipList.getOrdered, lawful.get_eq, c.skiplist]

theorem getUneven (lawful : list.Lawful) (c : self.HasContent list content) :
    self.getUneven list i = content[i]? :=
  c.getOrdered lawful

variable [Add τ] [Div τ] [OfNat τ 2]

theorem getEven (lawful : list.Lawful) (c : self.HasContent list content)
    (ha : content[i]? = some a) (hb : content[j]? = some b) :
    self.getEven list i j = some ((a + b) / 2) := by
  simp [MovingMedian.getEven, c.getOrdered lawful, ha, hb]

omit [LinearOrder τ] in
theorem median_none (c : self.HasContent list content) (h : content.length < 4) : self.median list = none := by
  simp [median, RingOrderedSkipList.len, c.ring, h]

theorem median_eq (lawful : list.Lawful) (c : self.HasContent list content) (h : 4 ≤ content.length)
    (hm : Middle content a) : self.median list = some a := by
  have hl : self.window.len = content.length := c.ring
  have hn : ¬content.length < 4 := by omega
  obtain ⟨k, hk, hm⟩ | ⟨k, a, b, hk, ha, hb, rfl⟩ := hm.index
  case inl =>
    have hr : content.length % 2 = 1 := by omega
    have hi : content.length / 2 = k := by omega
    simp [median, hl, hn, hr, hi, c.getUneven lawful, hm]
  case inr =>
    have hr : content.length % 2 = 0 := by omega
    have hi : content.length / 2 = k + 1 := by omega
    simp [median, hl, hn, hr, hi, c.getEven lawful ha hb]

end HasContent

-- The values of the window are in the skip list and the median is the one of these.
theorem updates_median [Add τ] [Div τ] [OfNat τ 2] (lawful : list.Lawful) (size : MovingMedianSize)
    (values : List τ) :
    ∃ self content, updates list size values = some self ∧ self.HasContent list content ∧
      content.Perm (values.rtake size.size) ∧ content.Pairwise (· ≤ ·) ∧
      (values.length < 4 → self.median list = none) ∧
      (4 ≤ values.length → ∃ m, self.median list = some m ∧ Middle content m) := by
  have ⟨self, hs, hw, hh⟩ := updates_holds lawful size values
  have c : self.HasContent list (list.toList self.window.skiplist) := ⟨hh.len, rfl⟩
  have hl : (list.toList self.window.skiplist).length = min size.size values.length := by
    rw [hh.skiplist.length_eq, Window.length_rtake, hw]
  have := size.valid
  refine ⟨self, _, hs, c, hw ▸ hh.skiplist, lawful.sorted _, ?_, ?_⟩
  case refine_1 =>
    intro h
    exact c.median_none (by omega)
  case refine_2 =>
    intro h
    have ⟨m, hm⟩ := Middle.exists_middle (l := list.toList self.window.skiplist) (by omega)
    exact ⟨m, c.median_eq lawful (by omega) hm, hm⟩

theorem updates_median_evicting :
    ∃ self content, updates (.ofSorted ℤ) ⟨5, by decide⟩ [0, 10, 5, 6, 7, 50, 5, 9, 10] = some self ∧
      self.HasContent (.ofSorted ℤ) content ∧ content.Perm [7, 50, 5, 9, 10] ∧ content.Pairwise (· ≤ ·) ∧
      (9 < 4 → self.median (.ofSorted ℤ) = none) ∧
      (4 ≤ 9 → ∃ m, self.median (.ofSorted ℤ) = some m ∧ Middle content m) :=
  updates_median (.ofSorted ℤ) ⟨5, by decide⟩ [0, 10, 5, 6, 7, 50, 5, 9, 10]

end MovingMedian

section Quartiles

open Middle MovingMedian

variable {τ σ : Type _} [Field τ] [LinearOrder τ] [IsStrictOrderedRing τ] {list : OrderedSkipList σ τ}
variable {self : MovingMedian σ τ} {content : List τ} {m : τ}

namespace MovingMedian.HasContent

-- The lower quartile is the middle of the lower half, whatever the length.
omit [IsStrictOrderedRing τ] in
theorem q1_eq (lawful : list.Lawful) (c : self.HasContent list content) (h : 4 ≤ content.length)
    (hm : Middle (lowerHalf content) m) : self.q1 list = some m := by
  have hl : self.window.len = content.length := c.ring
  have hn : ¬content.length < 4 := by omega
  obtain ⟨k, hk, hm⟩ | ⟨k, a, b, hk, ha, hb, rfl⟩ := hm.index <;> rw [length_lowerHalf] at hk
  case inl =>
    rw [getElem?_lowerHalf (by omega)] at hm
    have hi : content.length / 4 = k := by omega
    obtain hr | hr : content.length % 4 = 2 ∨ content.length % 4 = 3 := by omega
    all_goals simp [q1, hl, hn, hr, hi, c.getUneven lawful, hm]
  case inr =>
    rw [getElem?_lowerHalf (by omega)] at ha hb
    have hi : content.length / 4 = k + 1 := by omega
    obtain hr | hr : content.length % 4 = 0 ∨ content.length % 4 = 1 := by omega
    all_goals simp [q1, hl, hn, hr, hi, c.getEven lawful hb ha, add_comm b a]

-- The upper quartile is the middle of the upper half, unless a middle element has to be left out of both halves and
-- the upper half has two elements in its middle. Then it is computed one place too low.
theorem q3_eq_iff (lawful : list.Lawful) (c : self.HasContent list content) (h : 4 ≤ content.length)
    (hm : Middle (upperHalf content) m) :
    self.q3 list = some m ↔
      (content.length % 4 = 1 →
        content[3 * (content.length / 4) - 1]? = content[3 * (content.length / 4) + 1]?) := by
  have hl : self.window.len = content.length := c.ring
  have hn : ¬content.length < 4 := by omega
  obtain ⟨k, hk, hm⟩ | ⟨k, a, b, hk, ha, hb, rfl⟩ := hm.index <;> rw [length_upperHalf] at hk
  case inl =>
    rw [getElem?_upperHalf] at hm
    obtain hr | hr : content.length % 4 = 2 ∨ content.length % 4 = 3 := by omega
    all_goals
      have hi : content.length * 3 / 4 = (content.length + 1) / 2 + k := by omega
      simp [q3, hl, hn, hr, hi, c.getUneven lawful, hm]
  case inr =>
    rw [getElem?_upperHalf] at ha hb
    obtain hr | hr : content.length % 4 = 0 ∨ content.length % 4 = 1 := by omega
    case inl =>
      have hi : content.length * 3 / 4 = (content.length + 1) / 2 + (k + 1) := by omega
      simp [q3, hl, hn, hr, hi, c.getEven lawful hb ha, add_comm b a]
    case inr =>
      have hi : content.length * 3 / 4 = 3 * k + 3 := by omega
      have hlow : (content.length + 1) / 2 + k = 3 * k + 3 := by omega
      have hhigh : (content.length + 1) / 2 + (k + 1) = 3 * k + 4 := by omega
      have hq : 3 * (content.length / 4) = 3 * k + 3 := by omega
      rw [hlow] at ha
      rw [hhigh] at hb
      have hx := List.getElem?_eq_getElem (l := content) (i := 3 * k + 2) (by omega)
      simp [q3, hl, hn, hr, hi, hq, c.getEven lawful ha hx, hb, hx, add_comm a, eq_comm]

omit [IsStrictOrderedRing τ] in
theorem q3_isSome (lawful : list.Lawful) (c : self.HasContent list content) (h : 4 ≤ content.length) :
    (self.q3 list).isSome := by
  have hl : self.window.len = content.length := c.ring
  have ha := List.getElem?_eq_getElem (l := content) (i := content.length * 3 / 4) (by omega)
  have hb := List.getElem?_eq_getElem (l := content) (i := content.length * 3 / 4 - 1) (by omega)
  simp only [q3, hl, if_neg (not_lt.mpr h)]
  split
  case h_1 | h_2 => simp [c.getEven lawful ha hb]
  case h_3       => simp [c.getUneven lawful, ha]

omit [IsStrictOrderedRing τ] in
theorem interquantileRange_isSome (lawful : list.Lawful) (c : self.HasContent list content)
    (h : 4 ≤ content.length) : ∃ range, self.interquantileRange list = some range := by
  have ⟨lower, hlo⟩ := exists_middle (l := lowerHalf content) (by rw [length_lowerHalf]; omega)
  have ⟨upper, hup⟩ := Option.isSome_iff_exists.mp (c.q3_isSome lawful h)
  exact ⟨_, by rw [interquantileRange, c.q1_eq lawful h hlo, hup]⟩

end MovingMedian.HasContent

namespace MovingMedian

variable {mirrored : MovingMedian σ τ}

theorem interquantileRange_iff (lawful : list.Lawful) (c : self.HasContent list content)
    (h : 4 ≤ content.length) (c' : mirrored.HasContent list (content.map (-·)).reverse) :
    ((∃ lower upper, Middle (lowerHalf content) lower ∧ Middle (upperHalf content) upper ∧
        self.interquantileRange list = some (upper - lower)) ↔
      (content.length % 4 = 1 →
        content[3 * (content.length / 4) - 1]? = content[3 * (content.length / 4) + 1]?)) ∧
    (self.q3 list = (mirrored.q1 list).map (-·) ↔
      (content.length % 4 = 1 →
        content[3 * (content.length / 4) - 1]? = content[3 * (content.length / 4) + 1]?)) := by
  have ⟨lower, hlo⟩ := exists_middle (l := lowerHalf content) (by rw [length_lowerHalf]; omega)
  have ⟨upper, hup⟩ := exists_middle (l := upperHalf content) (by rw [length_upperHalf]; omega)
  have hq1 := c.q1_eq lawful h hlo
  have hq3 := c.q3_eq_iff lawful h hup
  have hmirrored : mirrored.q1 list = some (-upper) :=
    c'.q1_eq lawful (by simpa using h) (by rw [lowerHalf_map_reverse]; exact hup.neg_reverse)
  constructor <;> rw [← hq3]
  case left =>
    constructor
    case mp =>
      intro ⟨_, _, hlo', hup', hr⟩
      rw [hlo'.unique hlo, hup'.unique hup, interquantileRange, hq1] at hr
      cases hq : self.q3 list <;> simp_all
    case mpr =>
      intro hq
      exact ⟨lower, upper, hlo, hup, by simp [interquantileRange, hq1, hq]⟩
  case right =>
    simp [hmirrored]

-- A median whose window has just been filled in ascending order.
def filled (content : { l : List τ // l.Pairwise (· ≤ ·) }) : MovingMedian { l : List τ // l.Pairwise (· ≤ ·) } τ where
  window := { ring := content.val, windowSize := content.val.length, cursor := 0, skiplist := content }

theorem interquantileRange_iff_filled :
    let median := filled ⟨[0, 1, 4, 4, 4], by decide +kernel⟩
    let mirrored := filled ⟨[-4, -4, -4, -1, 0], by decide +kernel⟩
    ((∃ lower upper, Middle (lowerHalf [0, 1, 4, 4, 4]) lower ∧ Middle (upperHalf [0, 1, 4, 4, 4]) upper ∧
        median.interquantileRange (.ofSorted ℚ) = some (upper - lower)) ↔
      (5 % 4 = 1 → ([0, 1, 4, 4, 4] : List ℚ)[2]? = ([0, 1, 4, 4, 4] : List ℚ)[4]?)) ∧
    (median.q3 (.ofSorted ℚ) = (mirrored.q1 (.ofSorted ℚ)).map (-·) ↔
      (5 % 4 = 1 → ([0, 1, 4, 4, 4] : List ℚ)[2]? = ([0, 1, 4, 4, 4] : List ℚ)[4]?)) :=
  interquantileRange_iff (.ofSorted ℚ) ⟨rfl, rfl⟩ (by decide) ⟨rfl, by decide +kernel⟩

-- Of 0, 1, 2, 3, 5 the upper quartile is 4, and the range not 2.
theorem interquantileRange_slip :
    (updates (.ofSorted ℚ) ⟨5, by decide⟩ [0, 1, 2, 3, 5]).bind (interquantileRange (.ofSorted ℚ)) = some 2 ∧
      (∀ lower upper, Middle (lowerHalf [0, 1, 2, 3, 5]) lower → Middle (upperHalf [0, 1, 2, 3, 5]) upper →
        (2 : ℚ) ≠ upper - lower) ∧
      (updates (.ofSorted ℚ) ⟨5, by decide⟩ [0, 1, 2, 3, 5]).bind (q3 (.ofSorted ℚ)) = some (5 / 2) ∧
      (updates (.ofSorted ℚ) ⟨5, by decide⟩ [0, -1, -2, -3, -5]).bind (q1 (.ofSorted ℚ)) = some (-4) := by
  refine ⟨by decide +kernel, ?_, by decide +kernel, by decide +kernel⟩
  intro lower upper hlo hup
  have hl : Middle (lowerHalf [0, 1, 2, 3, 5]) ((0 + 1) / 2 : ℚ) := @Middle.even _ _ _ _ [] 0 1 [] rfl
  have hu : Middle (upperHalf [0, 1, 2, 3, 5]) ((3 + 5) / 2 : ℚ) := @Middle.even _ _ _ _ [] 3 5 [] rfl
  rw [hlo.unique hl, hup.unique hu]
  decide +kernel

end MovingMedian

end Quartiles
