import Mathlib.Data.List.Basic
import Mathlib.Data.List.Nodup
import Mathlib.Data.Prod.Lex
import Mathlib.Order.Lattice

/-!
# Round robin

An iterator over several lists that takes one element of each list in turn. It keeps a cursor
and whether the current round has yielded anything; a round that yields nothing is the last.
What it yields are the elements in the order of their position, and of their list among those
of the same position. The lists are given beforehand and do not change during the iteration.
-/

namespace RsNano

open List Option Prod.Lex

/-- What is left of every list, the list whose turn it is and whether the round has yielded. -/
structure RoundRobin (A : Type*) where
  iters : List (List A)
  current : ℕ
  yielded : Bool

namespace RoundRobin

variable {A B κ : Type*}

/-- The iterator before its first element. -/
def start (lists : List (List A)) : RoundRobin A := ⟨lists, 0, false⟩

/-- The next element of the current list. -/
def item (s : RoundRobin A) : Option A := s.iters[s.current]?.bind head?

/-- Take the next element of the current list and go on to the next list. -/
def advance (s : RoundRobin A) : RoundRobin A :=
  ⟨s.iters.modify s.current tail, s.current + 1, s.yielded || s.item.isSome⟩

/-- Behind the last list, a round that has yielded is followed by another one. -/
def wrap (s : RoundRobin A) : RoundRobin A :=
  if s.iters.length ≤ s.current ∧ s.yielded = true then start s.iters else s

/-- One turn of the loop. -/
def turn (s : RoundRobin A) : Option A × RoundRobin A := (s.item, s.advance.wrap)

/-- Take turns until one has an element or the last round is over; `none` if out of fuel. -/
def next : ℕ → RoundRobin A → Option (Option A × RoundRobin A)
  | 0, _ => none
  | fuel + 1, s =>
    if s.current < s.iters.length then
      match s.turn with
      | (some a, s') => some (some a, s')
      | (none, s') => next fuel s'
    else some (none, s)

/-- What a loop over the iterator sees when every element is looked up with `f`. It ends with the
first element that is not found. -/
def collect (f : A → Option B) (loops : ℕ) : ℕ → RoundRobin A → Option (List B)
  | 0, _ => none
  | calls + 1, s =>
    match s.next loops with
    | none => none
    | some (none, _) => some []
    | some (some a, s') =>
      match f a with
      | none => some []
      | some b => (collect f loops calls s').map (b :: ·)

/-! ### The order of the elements -/

/-- The length of the longest list. -/
def height (lists : List (List A)) : ℕ := (lists.map length).foldr max 0

/-- The elements with their position and the number of their list, round by round. -/
def cells (lists : List (List A)) : List ((ℕ × ℕ) × A) :=
  (range (height lists)).flatMap fun k =>
    lists.zipIdx.filterMap fun p => p.1[k]?.map fun a => ((k, p.2), a)

/-- The elements, round by round. -/
def rounds (lists : List (List A)) : List A := (cells lists).map Prod.snd

variable {lists : List (List A)} {s : RoundRobin A}

/-- No list is longer than the longest. -/
theorem length_le_height {l : List A} (h : l ∈ lists) : l.length ≤ height lists := by
  induction lists with
  | nil => exact absurd h not_mem_nil
  | cons head rest ih =>
    rcases mem_cons.mp h with rfl | hrest
    · exact le_max_left _ _
    · exact (ih hrest).trans (le_max_right _ _)

/-- The cells are the elements of the lists. -/
theorem mem_cells {k i : ℕ} {a : A} :
    ((k, i), a) ∈ cells lists ↔ ∃ l, lists[i]? = some l ∧ l[k]? = some a := by
  simp only [cells, List.mem_flatMap, List.mem_range, List.mem_filterMap, map_eq_some_iff,
    Prod.mk.injEq, Prod.exists]
  constructor
  · rintro ⟨_, -, l, _, hl, a, hk, ⟨rfl, rfl⟩, rfl⟩
    exact ⟨l, List.mem_zipIdx_iff_getElem?.mp hl, hk⟩
  · rintro ⟨l, hl, hk⟩
    obtain ⟨hlt, -⟩ := List.getElem?_eq_some_iff.mp hk
    exact ⟨k, hlt.trans_le (length_le_height (List.mem_of_getElem? hl)), l, i,
      List.mem_zipIdx_iff_getElem?.mpr hl, a, hk, ⟨rfl, rfl⟩, rfl⟩

variable (lists)

/-- Taking one element of each list makes the longest one shorter. -/
theorem height_map_tail : height (lists.map tail) = height lists - 1 := by
  induction lists with
  | nil => rfl
  | cons head rest ih =>
    change max head.tail.length (height (rest.map tail)) = max head.length (height rest) - 1
    rw [length_tail]
    omega

/-- The cells are ordered by position, and by list within a position. -/
theorem pairwise_cells : (cells lists).Pairwise fun x y => toLex x.1 < toLex y.1 := by
  rw [cells, pairwise_flatMap]
  constructor
  · intro k _
    refine List.Pairwise.filterMap (R := fun p q : List A × ℕ => p.2 < q.2) _ ?_ ?_
    · intro p q hlt x hx y hy
      obtain ⟨a, -, rfl⟩ := map_eq_some_iff.mp hx
      obtain ⟨b, -, rfl⟩ := map_eq_some_iff.mp hy
      exact toLex_lt_toLex.mpr (.inr ⟨rfl, hlt⟩)
    · rw [← pairwise_map, zipIdx_map_snd]
      exact pairwise_lt_range'
  · refine pairwise_lt_range.imp ?_
    intro k m hlt x hx y hy
    obtain ⟨p, -, hp⟩ := mem_filterMap.mp hx
    obtain ⟨q, -, hq⟩ := mem_filterMap.mp hy
    obtain ⟨a, -, rfl⟩ := map_eq_some_iff.mp hp
    obtain ⟨b, -, rfl⟩ := map_eq_some_iff.mp hq
    exact toLex_lt_toLex.mpr (.inl hlt)

/-- Round by round, without the positions. -/
theorem rounds_eq_flatMap :
    rounds lists = (range (height lists)).flatMap fun k => lists.filterMap fun l => l[k]? := by
  rw [rounds, cells, map_flatMap]
  congr 1
  funext k
  calc ((lists.zipIdx.filterMap fun p => p.1[k]?.map fun a => ((k, p.2), a)).map Prod.snd)
      = lists.zipIdx.filterMap ((fun l => l[k]?) ∘ Prod.fst) := by
        rw [map_filterMap]
        simp only [Option.map_map, Function.comp_def, Option.map_id']
    _ = lists.filterMap fun l => l[k]? := by rw [← filterMap_map, zipIdx_map_fst]

/-- The first round takes the first element of each list, the others go on with the rest. -/
theorem rounds_eq : rounds lists = lists.filterMap head? ++ rounds (lists.map tail) := by
  rw [rounds_eq_flatMap, rounds_eq_flatMap, height_map_tail]
  cases hht : height lists with
  | zero =>
    have hnil : lists.filterMap head? = [] := by
      refine filterMap_eq_nil_iff.mpr fun l hl => ?_
      have hle := length_le_height hl
      rw [eq_nil_of_length_eq_zero (by omega : l.length = 0)]
      rfl
    rw [hnil]
    rfl
  | succ n =>
    rw [range_succ_eq_map, flatMap_cons, flatMap_map]
    congr 1
    · congr 1
      funext l
      exact head?_eq_getElem?.symm
    · congr 1
      funext k
      rw [filterMap_map]
      congr 1
      funext l
      exact getElem?_tail.symm

variable {lists}

/-- No round is left when all lists are empty. -/
theorem rounds_of_forall_nil (h : ∀ l ∈ lists, l = []) : rounds lists = [] := by
  rw [rounds_eq_flatMap, flatMap_eq_nil_iff]
  intro k _
  refine filterMap_eq_nil_iff.mpr fun l hl => ?_
  rw [h l hl]
  rfl

/-! ### What the iterator yields -/

/-- What is still to come: the rest of this round and the rounds after it. -/
def rest (s : RoundRobin A) : List A :=
  (s.iters.drop s.current).filterMap head? ++
    rounds (s.iters.take s.current ++ (s.iters.drop s.current).map tail)

/-- A round without an element has passed empty lists only, and only such a round ends. -/
structure Ready (s : RoundRobin A) : Prop where
  passed : s.yielded = false → ∀ l ∈ s.iters.take s.current, l = []
  last : s.iters.length ≤ s.current → s.yielded = false

/-- The turns that can go by without an element. -/
def budget (s : RoundRobin A) : ℕ :=
  (if s.yielded = true then s.iters.length else 0) + (s.iters.length - s.current)

/-- The iterator is ready before its first element, and everything is still to come. -/
theorem ready_start (lists : List (List A)) : (start lists).Ready where
  passed _ _ hl := absurd hl not_mem_nil
  last _ := rfl

theorem rest_start (lists : List (List A)) : (start lists).rest = rounds lists :=
  (rounds_eq lists).symm

/-- Behind the last list the next round is all there is to come. -/
theorem rest_of_length_le (h : s.iters.length ≤ s.current) : s.rest = rounds s.iters := by
  rw [rest, drop_eq_nil_of_le h, take_of_length_le h]
  simp

/-- The lists before the current one, the current one and those behind it. -/
theorem exists_split (h : s.current < s.iters.length) :
    ∃ pre l post, s = ⟨pre ++ l :: post, pre.length, s.yielded⟩ := by
  obtain ⟨iters, current, yielded⟩ := s
  refine ⟨iters.take current, iters[current], iters.drop (current + 1), ?_⟩
  have hlen : (iters.take current).length = current := length_take_of_le (le_of_lt h)
  rw [hlen, ← drop_eq_getElem_cons h, take_append_drop]

section

variable (pre : List (List A)) (l : List A) (post : List (List A))

include pre l post

theorem item_split (yielded : Bool) : item ⟨pre ++ l :: post, pre.length, yielded⟩ = l.head? := by
  simp [item]

theorem advance_split (yielded : Bool) :
    advance ⟨pre ++ l :: post, pre.length, yielded⟩ =
      ⟨pre ++ l.tail :: post, pre.length + 1, yielded || l.head?.isSome⟩ := by
  rw [advance, item_split, modify_eq_take_cons_drop (by simp)]
  simp

theorem take_split : (pre ++ l :: post).take (pre.length + 1) = pre ++ [l] :=
  take_length_add_append 1

end

/-- Going on to the next list takes what comes next, or passes an empty list. -/
theorem rest_advance (h : s.current < s.iters.length) :
    s.rest = s.item.toList ++ s.advance.rest := by
  obtain ⟨pre, l, post, hs⟩ := exists_split h
  rw [hs, item_split, advance_split, rest, rest]
  have hdrop : (pre ++ l.tail :: post).drop (pre.length + 1) = post := by simp
  rw [hdrop, take_split, drop_left, take_left, map_cons, append_assoc,
    singleton_append, ← append_assoc]
  congr 1
  cases l with
  | nil | cons a t => rfl

theorem rest_wrap (s : RoundRobin A) : s.wrap.rest = s.rest := by
  rw [wrap]
  split
  · next h => rw [rest_start, rest_of_length_le h.1]
  · rfl

theorem length_turn (s : RoundRobin A) : s.turn.2.iters.length = s.iters.length := by
  change s.advance.wrap.iters.length = _
  rw [wrap]
  split
  · exact length_modify _ _ _
  · exact length_modify _ _ _

/-- A turn takes what comes next, or passes an empty list. -/
theorem rest_turn (h : s.current < s.iters.length) : s.rest = s.turn.1.toList ++ s.turn.2.rest := by
  change s.rest = s.item.toList ++ s.advance.wrap.rest
  rw [rest_wrap, rest_advance h]

/-- A turn keeps the iterator ready. -/
theorem Ready.turn (h : s.Ready) (hlt : s.current < s.iters.length) : s.turn.2.Ready := by
  change s.advance.wrap.Ready
  rw [wrap]
  split
  · exact ready_start _
  · next hwrap =>
    constructor
    · intro hyielded x hx
      obtain ⟨pre, l, post, hs⟩ := exists_split hlt
      have hpass := h.passed
      rw [hs, advance_split] at hyielded hx
      rw [hs] at hpass
      obtain ⟨hbef, hitem⟩ := Bool.or_eq_false_iff.mp hyielded
      rw [take_split] at hx
      rcases mem_append.mp hx with hpre | hcur
      · refine hpass hbef x ?_
        rwa [take_left]
      · have hnone : l.head? = none := isNone_iff_eq_none.mp (isSome_eq_false_iff.mp hitem)
        rw [mem_singleton.mp hcur, head?_eq_none_iff.mp hnone]
        rfl
    · intro hle
      exact Bool.eq_false_of_not_eq_true fun hyielded => hwrap ⟨hle, hyielded⟩

/-- Turns without an element run out. -/
theorem budget_turn (hlt : s.current < s.iters.length) (hitem : s.item = none) :
    s.turn.2.budget < s.budget := by
  have hadv : s.advance = ⟨s.iters.modify s.current tail, s.current + 1, s.yielded⟩ := by
    rw [advance, hitem, isSome_none, Bool.or_false]
  change s.advance.wrap.budget < s.budget
  rw [wrap, hadv]
  split
  · next hwrap =>
    rw [budget, budget, if_pos hwrap.2]
    simp only [start, length_modify]
    simp
    omega
  · rw [budget, budget]
    simp only [length_modify]
    omega

/-- The loop of one call ends, with what comes next. -/
theorem Ready.next {fuel : ℕ} (h : s.Ready) (hfuel : s.budget < fuel) :
    ∃ item s', s.next fuel = some (item, s') ∧ s'.Ready ∧ s'.iters.length = s.iters.length ∧
      s.rest = item.toList ++ s'.rest ∧ (item = none → s.rest = []) := by
  induction fuel generalizing s with
  | zero => exact absurd hfuel (Nat.not_lt_zero _)
  | succ fuel ih =>
    rw [RoundRobin.next]
    by_cases hlt : s.current < s.iters.length
    · rw [if_pos hlt]
      have hready := h.turn hlt
      have hrest := rest_turn hlt
      have hlength := s.length_turn
      have hbudget := budget_turn hlt
      rcases hturn : s.turn with ⟨_ | a, s'⟩
      · have hitem : s.item = none := congrArg Prod.fst hturn
        have hless := hbudget hitem
        rw [hturn] at hready hrest hlength hless
        obtain ⟨item, last, hnext, hlast, hlen, hitem, hnone⟩ := ih hready (by omega)
        have hsame : s.rest = s'.rest := hrest
        exact ⟨item, last, hnext, hlast, hlen.trans hlength, hsame.trans hitem,
          fun hi => hsame.trans (hnone hi)⟩
      · rw [hturn] at hready hrest hlength
        exact ⟨some a, s', rfl, hready, hlength, hrest, fun hi => nomatch hi⟩
    · rw [if_neg hlt]
      have hpass : s.rest = [] := by
        rw [rest_of_length_le (by omega)]
        refine rounds_of_forall_nil fun l hl => ?_
        refine h.passed (h.last (by omega)) l ?_
        rwa [take_of_length_le (by omega)]
      exact ⟨none, s, rfl, h, rfl, rfl, fun _ => hpass⟩

/-- The budget never exceeds two rounds. -/
theorem budget_le (s : RoundRobin A) : s.budget ≤ 2 * s.iters.length := by
  rw [budget]
  split
  · omega
  · omega

/-- A loop over the iterator ends, and it sees every element when each of them is found. -/
theorem Ready.collect {f : A → Option B} {loops calls : ℕ} (h : s.Ready)
    (hfound : ∀ a ∈ s.rest, (f a).isSome = true) (hloops : 2 * s.iters.length < loops)
    (hcalls : s.rest.length < calls) : s.collect f loops calls = some (s.rest.filterMap f) := by
  induction calls generalizing s with
  | zero => exact absurd hcalls (Nat.not_lt_zero _)
  | succ calls ih =>
    obtain ⟨item, s', hnext, hready, hlen, hrest, hnone⟩ := h.next (s.budget_le.trans_lt hloops)
    rw [RoundRobin.collect, hnext]
    cases item with
    | none =>
      rw [hnone rfl]
      rfl
    | some a =>
      change s.rest = a :: s'.rest at hrest
      rw [hrest] at hfound hcalls
      obtain ⟨b, hb⟩ := isSome_iff_exists.mp (hfound a mem_cons_self)
      have hcoll := ih hready (fun x hx => hfound x (mem_cons_of_mem _ hx))
        (by omega) (by rw [length_cons] at hcalls; omega)
      simp only [hb, hcoll, map_some, hrest, filterMap_cons_some hb]

/-! ### What the order guarantees -/

/-- Every element of a list comes, and nothing else. -/
theorem mem_rounds {a : A} : a ∈ rounds lists ↔ ∃ l ∈ lists, a ∈ l := by
  rw [rounds, List.mem_map]
  constructor
  · rintro ⟨⟨⟨k, i⟩, a⟩, hcell, rfl⟩
    obtain ⟨l, hl, hk⟩ := mem_cells.mp hcell
    exact ⟨l, mem_of_getElem? hl, mem_of_getElem? hk⟩
  · rintro ⟨l, hl, ha⟩
    obtain ⟨i, hi⟩ := mem_iff_getElem?.mp hl
    obtain ⟨k, hk⟩ := mem_iff_getElem?.mp ha
    exact ⟨((k, i), a), mem_cells.mpr ⟨l, hi, hk⟩, rfl⟩

/-- The key of an element tells which list it is in. -/
def Separates (key : A → κ) (lists : List (List A)) : Prop :=
  ∀ (i j : ℕ) (l m : List A), lists[i]? = some l → lists[j]? = some m →
    ∀ a ∈ l, ∀ b ∈ m, (key a = key b ↔ i = j)

/-- Lists that are found under different names are told apart by a key that gives the name. -/
theorem separates_map {ι : Type*} {names : List ι} (hnd : names.Nodup) {list : ι → List A}
    {key : A → κ} {keyOf : ι → κ} (hinj : Function.Injective keyOf)
    (hkey : ∀ i, ∀ a ∈ list i, key a = keyOf i) : Separates key (names.map list) := by
  intro i j l m hl hm a ha b hb
  rw [List.getElem?_map, map_eq_some_iff] at hl hm
  obtain ⟨x, hx, rfl⟩ := hl
  obtain ⟨y, hy, rfl⟩ := hm
  rw [hkey x a ha, hkey y b hb, hinj.eq_iff]
  obtain ⟨-, rfl⟩ := List.getElem?_eq_some_iff.mp hx
  obtain ⟨-, rfl⟩ := List.getElem?_eq_some_iff.mp hy
  exact hnd.getElem_inj_iff

variable {key : A → κ} {lists : List (List A)} (h : Separates key lists)

include h

/-- Two cells have elements of one key if they belong to one list. -/
theorem Separates.cells {x y : (ℕ × ℕ) × A} (hx : x ∈ cells lists) (hy : y ∈ cells lists) :
    key x.2 = key y.2 ↔ x.1.2 = y.1.2 := by
  obtain ⟨l, hl, hk⟩ := mem_cells.mp hx
  obtain ⟨m, hm, hn⟩ := mem_cells.mp hy
  exact h _ _ l m hl hm _ (mem_of_getElem? hk) _ (mem_of_getElem? hn)

/-- The elements of one list come in the order of the list. -/
theorem Separates.pairwise_rounds {R : A → A → Prop} (hlists : ∀ l ∈ lists, l.Pairwise R) :
    (rounds lists).Pairwise fun a b => key a = key b → R a b := by
  rw [rounds, List.pairwise_map]
  refine (pairwise_cells lists).imp_of_mem ?_
  rintro ⟨⟨k, i⟩, a⟩ ⟨⟨n, j⟩, b⟩ ha hb hlt hkey
  obtain rfl : i = j := (h.cells ha hb).mp hkey
  obtain ⟨l, hl, hk⟩ := mem_cells.mp ha
  obtain ⟨m, hm, hn⟩ := mem_cells.mp hb
  obtain rfl : l = m := some_inj.mp (hl.symm.trans hm)
  have hkn : k < n := by
    rcases toLex_lt_toLex.mp hlt with hlt | ⟨-, hlt⟩
    · exact hlt
    · exact absurd hlt (lt_irrefl _)
  obtain ⟨hk', rfl⟩ := List.getElem?_eq_some_iff.mp hk
  obtain ⟨hn', rfl⟩ := List.getElem?_eq_some_iff.mp hn
  exact List.pairwise_iff_getElem.mp (hlists l (List.mem_of_getElem? hl)) k n hk' hn' hkn

/-- Nothing comes twice. -/
theorem Separates.nodup_rounds (hlists : ∀ l ∈ lists, l.Nodup) : (rounds lists).Nodup :=
  (h.pairwise_rounds hlists).imp fun hne hab => hne (congrArg key hab) hab

section

variable {before between after : List ((ℕ × ℕ) × A)} {x y : (ℕ × ℕ) × A}
  (hcells : RoundRobin.cells lists = before ++ x :: (between ++ y :: after))
  (hxy : key x.2 = key y.2) (hbetween : ∀ c ∈ between, key c.2 ≠ key x.2)

include hcells hxy hbetween

/-- The next cell of a list is the one with the next position. -/
theorem Separates.next_cell : y.1 = (x.1.1 + 1, x.1.2) := by
  have hmem : ∀ c, c ∈ RoundRobin.cells lists ↔
      c ∈ before ∨ c = x ∨ c ∈ between ∨ c = y ∨ c ∈ after := by
    intro c
    rw [hcells]
    simp
  have hx := (hmem x).mpr (.inr (.inl rfl))
  have hy := (hmem y).mpr (.inr (.inr (.inr (.inl rfl))))
  have hsort := pairwise_cells lists
  rw [hcells, List.pairwise_append, List.pairwise_cons, List.pairwise_append,
    List.pairwise_cons] at hsort
  obtain ⟨-, ⟨hxlt, -, ⟨hylt, -⟩, -⟩, hltx⟩ := hsort
  obtain ⟨⟨k, i⟩, a⟩ := x
  obtain ⟨⟨n, j⟩, b⟩ := y
  obtain rfl : i = j := (h.cells hx hy).mp hxy
  have hkn : k < n := by
    have hlt : k < n ∨ k = n ∧ i < i := toLex_lt_toLex.mp (hxlt ((n, i), b) (by simp))
    omega
  -- the cell behind x in its list comes at y
  obtain ⟨l, hl, hn⟩ := mem_cells.mp hy
  obtain ⟨hlen, -⟩ := List.getElem?_eq_some_iff.mp hn
  have hcell : ((k + 1, i), l[k + 1]) ∈ RoundRobin.cells lists :=
    mem_cells.mpr ⟨l, hl, List.getElem?_eq_getElem (by omega)⟩
  rcases (hmem _).mp hcell with hbef | heq | hbetw | heq | hafter
  · have hlt : k + 1 < k ∨ k + 1 = k ∧ i < i := toLex_lt_toLex.mp (hltx _ hbef _ List.mem_cons_self)
    omega
  · exact absurd (congrArg (fun c => c.1.1) heq) (Nat.succ_ne_self k)
  · exact absurd ((h.cells hcell hx).mpr rfl) (hbetween _ hbetw)
  · exact (congrArg Prod.fst heq).symm
  · have hlt : n < k + 1 ∨ n = k + 1 ∧ i < i := toLex_lt_toLex.mp (hylt _ hafter)
    omega

/-- Between two neighbours of one list there are no two elements of any list. -/
theorem Separates.pairwise_between : between.Pairwise fun a b => key a.2 ≠ key b.2 := by
  have hnext := h.next_cell hcells hxy hbetween
  have hmem : ∀ c ∈ x :: between, c ∈ RoundRobin.cells lists := by
    intro c hc
    rw [hcells]
    rcases mem_cons.mp hc with rfl | hc
    · simp
    · simp [hc]
  have hsort := pairwise_cells lists
  rw [hcells, pairwise_append, pairwise_cons, pairwise_append] at hsort
  obtain ⟨-, ⟨hxlt, hpair, -, hlty⟩, -⟩ := hsort
  have hbounds : ∀ c ∈ between, c.1.1 = if x.1.2 < c.1.2 then x.1.1 else x.1.1 + 1 := by
    intro c hc
    have hlt := toLex_lt_toLex.mp (hxlt c (mem_append_left _ hc))
    have hgt := toLex_lt_toLex.mp (hlty c hc y mem_cons_self)
    rw [hnext] at hgt
    split
    · omega
    · omega
  refine hpair.imp_of_mem ?_
  intro a b ha hb hab hkey
  have hlist : a.1.2 = b.1.2 :=
    (h.cells (hmem a (mem_cons_of_mem _ ha)) (hmem b (mem_cons_of_mem _ hb))).mp hkey
  have hposition : a.1.1 = b.1.1 := by rw [hbounds a ha, hbounds b hb, hlist]
  exact absurd hab (by rw [Prod.ext hposition hlist]; exact lt_irrefl _)

end

/-- Between two neighbours of one list at most one element of every other list comes. -/
theorem Separates.nodup_between {before between after : List A} {x y : A}
    (hout : rounds lists = before ++ x :: (between ++ y :: after)) (hxy : key x = key y)
    (hbetween : ∀ a ∈ between, key a ≠ key x) : (between.map key).Nodup := by
  obtain ⟨cbefore, cs, hcells, rfl, hcs⟩ := map_eq_append_iff.mp hout
  obtain ⟨cx, cs, rfl, rfl, hbehind⟩ := map_eq_cons_iff.mp hcs
  obtain ⟨cbetween, cs, rfl, rfl, hlast⟩ := map_eq_append_iff.mp hbehind
  obtain ⟨cy, cafter, rfl, rfl, rfl⟩ := map_eq_cons_iff.mp hlast
  have hpair := h.pairwise_between hcells hxy (fun c hc => hbetween c.2 (mem_map_of_mem hc))
  rw [List.Nodup, pairwise_map, pairwise_map]
  exact hpair

end RoundRobin

end RsNano
