import GraphBenchmark.Foundations.Slices
import Mathlib.Algebra.BigOperators.Group.Multiset.Basic
import Mathlib.Data.Multiset.Filter

/-! # Scattering items into the slices of their keys

Every item `i` has a key `key i` and a value `val i`. A worker draws a rank for its item from the
counter of the item's key, which counts up, and later stores the value at that place of the key's
slice. The workers' draws and stores interleave in any way.

`Ranked` is what the counters guarantee by themselves: the ranks drawn for a key are `0, 1, …` without
gap or repetition. `Inv` adds the workers and the array, and `Inv.finish` reads the result off: each
slot of the tiling is stored exactly once, and a slice holds the values of the items with its key. -/
namespace GraphBenchmark.Scatter
open GraphBenchmark.Slices
set_option autoImplicit false

variable {ι α : Type*}

/-! ## Ranks -/

def rank (key : ι → ℕ) (drawn : Multiset (ι × ℕ)) (v : ℕ) : ℕ := (drawn.filter fun p => key p.1 = v).card

/-- The ranks drawn for each key are the first ones, each drawn once. -/
def Ranked (key : ι → ℕ) (drawn : Multiset (ι × ℕ)) : Prop :=
  ∀ v, (drawn.filter fun p => key p.1 = v).map Prod.snd = Multiset.range (rank key drawn v)

variable {key : ι → ℕ} {drawn : Multiset (ι × ℕ)} {i : ι} {r v : ℕ}

theorem rank_cons (p : ι × ℕ) (v : ℕ) :
    rank key (p ::ₘ drawn) v = rank key drawn v + if key p.1 = v then 1 else 0 := by
  unfold rank
  by_cases h : key p.1 = v
  · rw [Multiset.filter_cons_of_pos drawn h, Multiset.card_cons, if_pos h]
  · rw [Multiset.filter_cons_of_neg drawn h, if_neg h, add_zero]

theorem rank_eq_countP : rank key drawn v = (drawn.map Prod.fst).countP (fun i => key i = v) := by
  rw [rank, Multiset.countP_map]

theorem Ranked.zero (key : ι → ℕ) : Ranked key (0 : Multiset (ι × ℕ)) := fun _ => rfl

theorem Ranked.draw (h : Ranked key drawn) (i : ι) : Ranked key ((i, rank key drawn (key i)) ::ₘ drawn) := by
  intro v
  rw [rank_cons]
  by_cases hv : key i = v
  · rw [Multiset.filter_cons_of_pos drawn hv, Multiset.map_cons, h v, if_pos hv, Multiset.range_succ, hv]
  · rw [Multiset.filter_cons_of_neg drawn hv, h v, if_neg hv, add_zero]

theorem Ranked.lt (h : Ranked key drawn) (hp : (i, r) ∈ drawn) : r < rank key drawn (key i) := by
  have hmem : r ∈ (drawn.filter fun p => key p.1 = key i).map Prod.snd :=
    Multiset.mem_map.mpr ⟨(i, r), Multiset.mem_filter.mpr ⟨hp, rfl⟩, rfl⟩
  rwa [h, Multiset.mem_range] at hmem

theorem Ranked.ne {p q : ι × ℕ} (h : Ranked key (p ::ₘ drawn)) (hq : q ∈ drawn) (hk : key p.1 = key q.1) :
    p.2 ≠ q.2 := by
  intro heq
  have hnodup : (((p ::ₘ drawn).filter fun x => key x.1 = key p.1).map Prod.snd).Nodup := by
    rw [h]
    exact Multiset.nodup_range _
  have hcons : (p ::ₘ drawn).filter (fun x => key x.1 = key p.1) =
      p ::ₘ drawn.filter (fun x => key x.1 = key p.1) := Multiset.filter_cons_of_pos drawn rfl
  rw [hcons, Multiset.map_cons, Multiset.nodup_cons, heq] at hnodup
  exact hnodup.1 (Multiset.mem_map.mpr ⟨q, Multiset.mem_filter.mpr ⟨hq, hk.symm⟩, rfl⟩)

/-! ## Slots -/

/-- The place of an item: its rank in the slice of its key. -/
def slot (key : ι → ℕ) (d : ℕ → ℕ) (p : ι × ℕ) : ℕ := start d (key p.1) + p.2

variable {d : ℕ → ℕ}

/-- A slot is the place of exactly one draw if its rank has been drawn, of none otherwise. -/
theorem Ranked.count_slot (h : Ranked key drawn) (hd : ∀ v, rank key drawn v ≤ d v) (hr : r < d v) :
    (drawn.map (slot key d)).count (start d v + r) = if r < rank key drawn v then 1 else 0 := by
  have hcount : (drawn.map (slot key d)).count (start d v + r) =
      ((drawn.filter fun p => key p.1 = v).map Prod.snd).count r := by
    rw [Multiset.count_map, Multiset.count_map, Multiset.filter_filter]
    congr 1
    refine Multiset.filter_congr fun p hp => ?_
    constructor
    · intro heq
      have hlt : p.2 < d (key p.1) := (h.lt hp).trans_le (hd _)
      obtain ⟨hv, hr'⟩ := start_add_inj hr hlt heq
      exact ⟨hr', hv.symm⟩
    · rintro ⟨hr', hv⟩
      rw [slot, hv, hr']
  rw [hcount, h]
  by_cases hlt : r < rank key drawn v
  · rw [if_pos hlt]
    exact Multiset.count_eq_one_of_mem (Multiset.nodup_range _) (Multiset.mem_range.mpr hlt)
  · rw [if_neg hlt]
    exact Multiset.count_eq_zero_of_notMem fun hm => hlt (Multiset.mem_range.mp hm)

theorem Ranked.slot_nodup (h : Ranked key drawn) (hd : ∀ v, rank key drawn v ≤ d v) :
    (drawn.map (slot key d)).Nodup := by
  rw [Multiset.nodup_iff_count_le_one]
  intro x
  by_cases hx : x ∈ drawn.map (slot key d)
  · obtain ⟨p, hp, rfl⟩ := Multiset.mem_map.mp hx
    rw [slot, h.count_slot hd ((h.lt hp).trans_le (hd _))]
    split <;> omega
  · rw [Multiset.count_eq_zero_of_notMem hx]
    exact Nat.zero_le 1

theorem Ranked.slot_eq_range {n : ℕ} (h : Ranked key drawn) (hd : ∀ v, rank key drawn v = d v)
    (hn : ∀ p ∈ drawn, key p.1 < n) : drawn.map (slot key d) = Multiset.range (start d n) := by
  refine (Multiset.Nodup.ext (h.slot_nodup fun v => (hd v).le) (Multiset.nodup_range _)).mpr fun x => ?_
  rw [Multiset.mem_range]
  constructor
  · intro hx
    obtain ⟨p, hp, rfl⟩ := Multiset.mem_map.mp hx
    exact start_add_lt (hn p hp) (hd (key p.1) ▸ h.lt hp)
  · intro hx
    obtain ⟨v, -, r, hr, rfl⟩ := exists_slot hx
    refine Multiset.count_pos.mp ?_
    rw [h.count_slot (fun v => (hd v).le) hr, if_pos (by rw [hd]; exact hr)]
    exact Nat.one_pos

/-! ## Workers -/

/-- The items a worker has still to draw for, and the draw it has not stored yet. -/
structure Drawer (ι : Type*) where
  todo : List ι
  held : Option (ι × ℕ)

def held (ws : List (Drawer ι)) : Multiset (ι × ℕ) := (ws.map fun w => (w.held.toList : Multiset (ι × ℕ))).sum

def todo (ws : List (Drawer ι)) : Multiset ι := (ws.map fun w => (w.todo : Multiset ι)).sum

/-- One step of one worker, on the array `cells` and the multiset `stored` of the stores made so far;
the counters stand at the ranks of `drawn`. -/
inductive Move (key : ι → ℕ) (val : ι → α) (d : ℕ → ℕ) (drawn : Multiset (ι × ℕ)) (cells : ℕ → α)
    (stored : Multiset (ι × ℕ)) : Drawer ι → (ℕ → α) → Multiset (ι × ℕ) → Drawer ι → Prop
  | stay (w : Drawer ι) : Move key val d drawn cells stored w cells stored w
  | draw {i : ι} {rest : List ι} :
      Move key val d drawn cells stored ⟨i :: rest, none⟩ cells stored ⟨rest, some (i, rank key drawn (key i))⟩
  | store {p : ι × ℕ} {rest : List ι} :
      Move key val d drawn cells stored ⟨rest, some p⟩ (Function.update cells (slot key d p) (val p.1))
        (p ::ₘ stored) ⟨rest, none⟩

/-- `all` are the items to scatter. -/
structure Inv (key : ι → ℕ) (val : ι → α) (d : ℕ → ℕ) (all : Multiset ι) (cells : ℕ → α)
    (stored : Multiset (ι × ℕ)) (ws : List (Drawer ι)) : Prop where
  items : (held ws + stored).map Prod.fst + todo ws = all
  ranked : Ranked key (held ws + stored)
  cell : ∀ p ∈ stored, cells (slot key d p) = val p.1

variable {val : ι → α} {all : Multiset ι} {cells cells' : ℕ → α} {stored stored' : Multiset (ι × ℕ)}
  {ws pre post : List (Drawer ι)} {w w' : Drawer ι}

theorem held_split : held (pre ++ w :: post) = (w.held.toList : Multiset (ι × ℕ)) + held (pre ++ post) := by
  simp only [held, List.map_append, List.map_cons, List.sum_append, List.sum_cons]
  exact add_left_comm _ _ _

theorem todo_split : todo (pre ++ w :: post) = (w.todo : Multiset ι) + todo (pre ++ post) := by
  simp only [todo, List.map_append, List.map_cons, List.sum_append, List.sum_cons]
  exact add_left_comm _ _ _

theorem held_some {p : ι × ℕ} {rest : List ι} :
    held (pre ++ ⟨rest, some p⟩ :: post) = p ::ₘ held (pre ++ post) := held_split

theorem held_none {rest : List ι} : held (pre ++ ⟨rest, none⟩ :: post) = held (pre ++ post) :=
  held_split.trans (zero_add _)

theorem todo_cons {i : ι} {rest : List ι} (o o' : Option (ι × ℕ)) :
    todo (pre ++ ⟨i :: rest, o⟩ :: post) = i ::ₘ todo (pre ++ ⟨rest, o'⟩ :: post) := by
  rw [todo_split, todo_split]
  exact Multiset.cons_add i rest (todo (pre ++ post))

theorem held_eq_zero (h : ∀ w ∈ ws, w.held = none) : held ws = 0 := by
  refine List.sum_eq_zero fun m hm => ?_
  obtain ⟨w, hw, rfl⟩ := List.mem_map.mp hm
  rw [h w hw]
  rfl

theorem todo_eq_zero (h : ∀ w ∈ ws, w.todo = []) : todo ws = 0 := by
  refine List.sum_eq_zero fun m hm => ?_
  obtain ⟨w, hw, rfl⟩ := List.mem_map.mp hm
  rw [h w hw]
  rfl

theorem Inv.start (hheld : ∀ w ∈ ws, w.held = none) (htodo : todo ws = all) : Inv key val d all cells 0 ws := by
  refine ⟨?_, ?_, fun p hp => absurd hp (Multiset.notMem_zero p)⟩
  · rw [held_eq_zero hheld, zero_add, Multiset.map_zero, zero_add, htodo]
  · rw [held_eq_zero hheld, zero_add]
    exact Ranked.zero key

theorem Inv.rank_le (h : Inv key val d all cells stored ws) (hd : ∀ v, all.countP (fun i => key i = v) = d v)
    (v : ℕ) : rank key (held ws + stored) v ≤ d v := by
  rw [← hd, ← h.items, rank_eq_countP, Multiset.countP_add]
  exact Nat.le_add_right _ _

theorem Inv.rank_lt (h : Inv key val d all cells stored ws) (hd : ∀ v, all.countP (fun i => key i = v) = d v)
    (hi : i ∈ todo ws) : rank key (held ws + stored) (key i) < d (key i) := by
  rw [← hd, ← h.items, rank_eq_countP, Multiset.countP_add]
  exact Nat.lt_add_of_pos_right (Multiset.countP_pos.mpr ⟨i, hi, rfl⟩)

theorem Inv.move (h : Inv key val d all cells stored (pre ++ w :: post))
    (hd : ∀ v, all.countP (fun i => key i = v) = d v)
    (hm : Move key val d (held (pre ++ w :: post) + stored) cells stored w cells' stored' w') :
    Inv key val d all cells' stored' (pre ++ w' :: post) := by
  cases hm with
  | stay => exact h
  | @draw i rest =>
    refine ⟨?_, ?_, h.cell⟩
    · rw [held_some, held_none, Multiset.cons_add, Multiset.map_cons, Multiset.cons_add, ← h.items, held_none,
        todo_cons none (some (i, rank key (held (pre ++ post) + stored) (key i))), Multiset.add_cons]
    · rw [held_some, held_none, Multiset.cons_add]
      have hranked := h.ranked
      rw [held_none] at hranked
      exact hranked.draw i
  | @store p rest =>
    have hmem : held (pre ++ (⟨rest, some p⟩ : Drawer ι) :: post) + stored = p ::ₘ (held (pre ++ post) + stored) := by
      rw [held_some, Multiset.cons_add]
    have hheld : held (pre ++ (⟨rest, none⟩ : Drawer ι) :: post) + p ::ₘ stored =
        held (pre ++ (⟨rest, some p⟩ : Drawer ι) :: post) + stored := by
      rw [hmem, held_none, Multiset.add_cons]
    refine ⟨?_, hheld ▸ h.ranked, ?_⟩
    · rw [hheld, ← h.items, todo_split, todo_split]
    · intro q hq
      rcases Multiset.mem_cons.mp hq with rfl | hq
      · exact Function.update_self _ _ _
      · -- the slot of an earlier store is another one
        have hne : slot key d q ≠ slot key d p := by
          have hqmem : q ∈ held (pre ++ (⟨rest, some p⟩ : Drawer ι) :: post) + stored := by
            rw [hmem]
            exact Multiset.mem_cons_of_mem (Multiset.mem_add.mpr (Or.inr hq))
          have hpmem : p ∈ held (pre ++ (⟨rest, some p⟩ : Drawer ι) :: post) + stored := by
            rw [hmem]
            exact Multiset.mem_cons_self p _
          intro heq
          obtain ⟨hk, hr⟩ := start_add_inj ((h.ranked.lt hqmem).trans_le (h.rank_le hd _))
            ((h.ranked.lt hpmem).trans_le (h.rank_le hd _)) heq
          have hranked := h.ranked
          rw [hmem] at hranked
          exact hranked.ne (Multiset.mem_add.mpr (Or.inr hq)) hk.symm hr.symm
        rw [Function.update_of_ne hne]
        exact h.cell q hq

theorem Inv.stored_nodup (h : Inv key val d all cells stored ws)
    (hd : ∀ v, all.countP (fun i => key i = v) = d v) : (stored.map (slot key d)).Nodup :=
  Multiset.nodup_of_le (Multiset.map_le_map (Multiset.le_add_left stored (held ws)))
    (h.ranked.slot_nodup (h.rank_le hd))

theorem Inv.drawn_lt (h : Inv key val d all cells stored ws)
    (hd : ∀ v, all.countP (fun i => key i = v) = d v) {p : ι × ℕ} (hp : p ∈ held ws + stored) :
    p.1 ∈ all ∧ p.2 < d (key p.1) := by
  refine ⟨?_, (h.ranked.lt hp).trans_le (h.rank_le hd _)⟩
  rw [← h.items]
  exact Multiset.mem_add.mpr (Or.inl (Multiset.mem_map_of_mem Prod.fst hp))

/-- When every worker is through, each slot has been stored once and each slice holds the values of the
items of its key. -/
theorem Inv.finish {n : ℕ} (h : Inv key val d all cells stored ws)
    (hd : ∀ v, all.countP (fun i => key i = v) = d v) (hn : ∀ i ∈ all, key i < n)
    (hdone : ∀ w ∈ ws, w.todo = [] ∧ w.held = none) :
    stored.map (slot key d) = Multiset.range (Slices.start d n) ∧
      ∀ v, (Multiset.range (d v)).map (fun r => cells (Slices.start d v + r)) =
        (all.filter fun i => key i = v).map val := by
  have hitems := h.items
  have hranked := h.ranked
  rw [held_eq_zero fun w hw => (hdone w hw).2, todo_eq_zero fun w hw => (hdone w hw).1, zero_add, add_zero]
    at hitems
  rw [held_eq_zero fun w hw => (hdone w hw).2, zero_add] at hranked
  have hrank : ∀ v, rank key stored v = d v := fun v => by rw [rank_eq_countP, hitems, hd]
  refine ⟨hranked.slot_eq_range hrank fun p hp => hn p.1 ?_, fun v => ?_⟩
  · rw [← hitems]
    exact Multiset.mem_map_of_mem Prod.fst hp
  · calc (Multiset.range (d v)).map (fun r => cells (Slices.start d v + r))
        = ((stored.filter fun p => key p.1 = v).map Prod.snd).map (fun r => cells (Slices.start d v + r)) := by
          rw [hranked v, hrank v]
      _ = (stored.filter fun p => key p.1 = v).map (fun p => val p.1) := by
          rw [Multiset.map_map]
          refine Multiset.map_congr rfl fun p hp => ?_
          obtain ⟨hp, hv⟩ := Multiset.mem_filter.mp hp
          rw [← h.cell p hp, slot, hv]
          rfl
      _ = ((stored.map Prod.fst).filter fun i => key i = v).map val := by
          rw [Multiset.filter_map, Multiset.map_map]
          rfl
      _ = (all.filter fun i => key i = v).map val := by rw [hitems]

end GraphBenchmark.Scatter
