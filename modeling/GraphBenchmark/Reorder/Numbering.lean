import GraphBenchmark.Model.Reorder
import GraphBenchmark.Foundations.Words
import Mathlib.Data.List.Nodup
import Mathlib.Data.Set.Function
import Mathlib.Order.Interval.Set.Defs

/-! # The new ids

The numbering loop gives each vertex its position in `newOrder`, the sorted order with vertex `0` moved to the
front when it is to keep its id. So the mapping is a bijection wherever `0` lands in the sorted order and whatever
the ties. -/
namespace GraphBenchmark
open Words
set_option autoImplicit false

def ids (n : ℕ) : List UInt32 := (List.range n).map UInt32.ofNat

/-- The entries the numbering loop hands out ids to. -/
def renumbered (maintain : Bool) (l : List UInt32) : List UInt32 := l.filter fun v => ¬ (maintain ∧ v = 0)

/-- The vertices in the order of their new ids. -/
def newOrder (maintain : Bool) (l : List UInt32) : List UInt32 := (if maintain then [0] else []) ++ renumbered maintain l

/-- `mapping` holds the position of every vertex in `l`. -/
structure Numbers (n : ℕ) (l : List UInt32) (mapping : ℕ → UInt32) : Prop where
  perm : l.Perm (ids n)
  at_index : ∀ j (hj : j < l.length), mapping l[j].toNat = UInt32.ofNat j

section Ids
variable {n : ℕ} {l : List UInt32} {v : UInt32}

theorem mem_ids (hn : n ≤ 2 ^ 32) : v ∈ ids n ↔ v.toNat < n := by
  rw [ids, List.mem_map]
  constructor
  · intro ⟨i, hi, hv⟩
    rw [List.mem_range] at hi
    rw [← hv, toNat_ofNat32 (by omega)]
    exact hi
  · exact fun hv => ⟨v.toNat, List.mem_range.mpr hv, UInt32.ofNat_toNat⟩

theorem nodup_ids (hn : n ≤ 2 ^ 32) : (ids n).Nodup := by
  refine List.Nodup.map_on (fun i hi j hj h => ?_) List.nodup_range
  rw [List.mem_range] at hi hj
  rw [← toNat_ofNat32 (show i < 2 ^ 32 by omega), h, toNat_ofNat32 (by omega)]

theorem renumbered_cons (maintain : Bool) (x : UInt32) (xs : List UInt32) : renumbered maintain (x :: xs) =
    if maintain ∧ x = 0 then renumbered maintain xs else x :: renumbered maintain xs := by
  rw [renumbered, List.filter_cons]
  by_cases h : maintain ∧ x = 0
  · rw [if_pos h, if_neg (by simpa using h)]
    rfl
  · rw [if_neg h, if_pos (decide_eq_true h)]
    rfl

theorem newOrder_false (l : List UInt32) : newOrder false l = l := List.filter_eq_self.mpr (by simp)

theorem newOrder_true (l : List UInt32) : newOrder true l = 0 :: renumbered true l := rfl

theorem newOrder_perm (maintain : Bool) (hn₀ : 0 < n) (hn : n ≤ 2 ^ 32) (hl : l.Perm (ids n)) :
    (newOrder maintain l).Perm (ids n) := by
  have hnodup : l.Nodup := hl.nodup_iff.mpr (nodup_ids hn)
  have hmem : (0 : UInt32) ∈ l := hl.mem_iff.mpr ((mem_ids hn).mpr hn₀)
  cases maintain with
  | false => rwa [newOrder_false]
  | true =>
    have hfilter : renumbered true l = l.erase 0 := by
      rw [hnodup.erase_eq_filter]
      exact List.filter_congr fun v _ => Bool.eq_iff_iff.mpr (by simp)
    rw [newOrder_true, hfilter]
    exact (List.perm_cons_erase hmem).symm.trans hl

/-- Behind the vertex that keeps its id, the new order is the sorted one. -/
theorem newOrder_pairwise {R : UInt32 → UInt32 → Prop} (maintain : Bool) (hl : l.Pairwise R) :
    ∀ i j (hj : j < (newOrder maintain l).length) (hij : i < j), (if maintain then 1 else 0) ≤ i →
      R (newOrder maintain l)[i] (newOrder maintain l)[j] := by
  have hkept := List.pairwise_iff_getElem.mp (hl.sublist (List.filter_sublist (p := fun v => ¬ (maintain ∧ v = 0))))
  cases maintain with
  | false => exact fun i j hj hij _ => hkept i j (hij.trans hj) hj hij
  | true =>
    intro i j hj hij hi
    obtain ⟨i, rfl⟩ := Nat.exists_eq_add_of_le' (show 1 ≤ i from hi)
    obtain ⟨j, rfl⟩ := Nat.exists_eq_add_of_le' (show 1 ≤ j by omega)
    exact hkept i j _ _ (by omega)

end Ids

namespace Numbers
variable {n : ℕ} {l : List UInt32} {mapping : ℕ → UInt32} {u v : UInt32}

theorem length_eq (h : Numbers n l mapping) : l.length = n := by
  rw [h.perm.length_eq, ids, List.length_map, List.length_range]

theorem exists_index (h : Numbers n l mapping) (hn : n ≤ 2 ^ 32) (hv : v.toNat < n) :
    ∃ j, ∃ hj : j < l.length, l[j] = v ∧ (mapping v.toNat).toNat = j := by
  obtain ⟨j, hj, rfl⟩ := List.mem_iff_getElem.mp (h.perm.mem_iff.mpr ((mem_ids hn).mpr hv))
  have hlen := h.length_eq
  exact ⟨j, hj, rfl, by rw [h.at_index j hj, toNat_ofNat32 (by omega)]⟩

theorem injective (h : Numbers n l mapping) (hn : n ≤ 2 ^ 32) (hu : u.toNat < n) (hv : v.toNat < n)
    (heq : mapping u.toNat = mapping v.toNat) : u = v := by
  obtain ⟨i, hi, hiu, hmi⟩ := h.exists_index hn hu
  obtain ⟨j, hj, hjv, hmj⟩ := h.exists_index hn hv
  have hij : i = j := by rw [← hmi, ← hmj, heq]
  subst hij
  exact hiu.symm.trans hjv

theorem lt (h : Numbers n l mapping) (hn : n ≤ 2 ^ 32) (hv : v.toNat < n) : (mapping v.toNat).toNat < n := by
  obtain ⟨j, hj, -, hm⟩ := h.exists_index hn hv
  rw [hm, ← h.length_eq]
  exact hj

theorem getElem_lt (h : Numbers n l mapping) (hn : n ≤ 2 ^ 32) {j : ℕ} (hj : j < l.length) : l[j].toNat < n :=
  (mem_ids hn).mp (h.perm.mem_iff.mp (List.getElem_mem hj))

theorem eq_getElem_iff (h : Numbers n l mapping) (hn : n ≤ 2 ^ 32) (hv : v.toNat < n) {j : ℕ} (hj : j < l.length) :
    (mapping v.toNat).toNat = j ↔ v = l[j] := by
  have hlen := h.length_eq
  have hat : (mapping l[j].toNat).toNat = j := by rw [h.at_index j hj, toNat_ofNat32 (by omega)]
  constructor
  · intro hm
    exact h.injective hn hv (h.getElem_lt hn hj) (UInt32.toNat_inj.mp (hm.trans hat.symm))
  · intro hv'
    rw [hv', hat]

theorem bijOn (h : Numbers n l mapping) (hn : n ≤ 2 ^ 32) :
    Set.BijOn (fun v => (mapping v).toNat) (Set.Iio n) (Set.Iio n) := by
  have hid : ∀ {v : ℕ}, v ∈ Set.Iio n → (UInt32.ofNat v).toNat = v := fun {v} hv =>
    toNat_ofNat32 (lt_of_lt_of_le (Set.mem_Iio.mp hv) hn)
  refine ⟨fun v hv => ?_, fun u hu v hv heq => ?_, fun j hj => ?_⟩
  · have hlt := h.lt hn (v := UInt32.ofNat v) ((hid hv).symm ▸ hv)
    rwa [hid hv] at hlt
  · have heq' := h.injective hn (u := UInt32.ofNat u) (v := UInt32.ofNat v) ((hid hu).symm ▸ hu) ((hid hv).symm ▸ hv)
      (by rw [hid hu, hid hv]; exact UInt32.toNat_inj.mp heq)
    rw [← hid hu, heq', hid hv]
  · have hj' : j < l.length := by rw [h.length_eq]; exact hj
    refine ⟨l[j].toNat, h.getElem_lt hn hj', ?_⟩
    exact (h.eq_getElem_iff hn (h.getElem_lt hn hj') hj').mpr rfl

end Numbers

/-! ## The numbering loop -/

/-- One iteration for the entry `v`. -/
def numberStep (maintain : Bool) (p : (ℕ → UInt32) × ℕ) (v : UInt32) : (ℕ → UInt32) × ℕ :=
  if maintain ∧ v = 0 then (Function.update p.1 0 0, p.2)
  else (Function.update p.1 v.toNat (UInt32.ofNat p.2), p.2 + 1)

section Loop
variable {maintain : Bool} {n : ℕ} {l : List UInt32} {ordered mapping : ℕ → UInt32}

theorem numberIds_eq_foldl (n : ℕ) : numberIds maintain ordered mapping n =
    ((List.range n).map ordered).foldl (numberStep maintain) (mapping, if maintain then 1 else 0) := by
  induction n with
  | zero => rfl
  | succ n ih =>
    rw [numberIds, ih, List.range_succ, List.map_append, List.foldl_append]
    rfl

/-- The loop keeps to the entries of its list and gives them consecutive ids, leaving out `0` where it keeps its
own. -/
theorem foldl_numberStep (maintain : Bool) (hl : l.Nodup) (m : ℕ → UInt32) (c : ℕ) :
    (∀ j v, (renumbered maintain l)[j]? = some v →
      (l.foldl (numberStep maintain) (m, c)).1 v.toNat = UInt32.ofNat (c + j)) ∧
    (maintain = true → (0 : UInt32) ∈ l → (l.foldl (numberStep maintain) (m, c)).1 0 = 0) ∧
    ∀ v : UInt32, v ∉ l → (l.foldl (numberStep maintain) (m, c)).1 v.toNat = m v.toNat := by
  induction l generalizing m c with
  | nil => exact ⟨nofun, nofun, fun v _ => rfl⟩
  | cons x xs ih =>
    obtain ⟨hx, hxs⟩ := List.nodup_cons.mp hl
    rw [List.foldl_cons, numberStep, renumbered_cons]
    by_cases hskip : maintain ∧ x = 0
    · obtain ⟨hids, -, hother⟩ := ih hxs (Function.update m 0 0) c
      rw [if_pos hskip, if_pos hskip]
      refine ⟨hids, fun _ _ => ?_, fun v hv => ?_⟩
      · have hzero := hother 0 fun h => hx (hskip.2 ▸ h)
        exact hzero.trans (Function.update_self 0 0 m)
      · obtain ⟨hvx, hvs⟩ := not_or.mp fun h => hv (List.mem_cons.mpr h)
        rw [hother v hvs, Function.update_of_ne]
        exact fun h => hvx (hskip.2 ▸ UInt32.toNat_inj.mp h)
    · obtain ⟨hids, hzero, hother⟩ := ih hxs (Function.update m x.toNat (UInt32.ofNat c)) (c + 1)
      rw [if_neg hskip, if_neg hskip]
      refine ⟨fun j v hj => ?_, fun hm h0 => ?_, fun v hv => ?_⟩
      · cases j with
        | zero =>
          obtain rfl := Option.some.inj hj
          rw [hother x hx, Function.update_self]
          rfl
        | succ j => rw [hids j v hj, Nat.add_right_comm, Nat.add_assoc]
      · exact hzero hm ((List.mem_cons.mp h0).resolve_left fun h => hskip ⟨hm, h.symm⟩)
      · obtain ⟨hvx, hvs⟩ := not_or.mp fun h => hv (List.mem_cons.mpr h)
        rw [hother v hvs, Function.update_of_ne]
        exact fun h => hvx (UInt32.toNat_inj.mp h)

/-! ## Lists with repetitions -/

theorem foldl_numberStep_count (maintain : Bool) (l : List UInt32) (p : (ℕ → UInt32) × ℕ) :
    (l.foldl (numberStep maintain) p).2 = p.2 + (renumbered maintain l).length := by
  induction l generalizing p with
  | nil => rfl
  | cons x xs ih =>
    rw [List.foldl_cons, ih, renumbered_cons, numberStep]
    split
    · rfl
    · rw [List.length_cons]
      omega

theorem foldl_numberStep_of_notMem {v : UInt32} (hv : v ∉ l) (p : (ℕ → UInt32) × ℕ) :
    (l.foldl (numberStep maintain) p).1 v.toNat = p.1 v.toNat := by
  induction l generalizing p with
  | nil => rfl
  | cons x xs ih =>
    obtain ⟨hvx, hvs⟩ := not_or.mp fun h => hv (List.mem_cons.mpr h)
    rw [List.foldl_cons, ih hvs, numberStep]
    split
    · rename_i hskip
      exact Function.update_of_ne (fun h => hvx (hskip.2 ▸ UInt32.toNat_inj.mp h)) _ _
    · exact Function.update_of_ne (fun h => hvx (UInt32.toNat_inj.mp h)) _ _

/-- The id of an entry comes from the last place it stands at. -/
theorem foldl_numberStep_last {pre post : List UInt32} {v : UInt32} (hv : v ∉ post) (p : (ℕ → UInt32) × ℕ) :
    ((pre ++ v :: post).foldl (numberStep maintain) p).1 v.toNat =
      if maintain ∧ v = 0 then 0 else UInt32.ofNat (p.2 + (renumbered maintain pre).length) := by
  rw [List.foldl_append, List.foldl_cons, foldl_numberStep_of_notMem hv, ← foldl_numberStep_count, numberStep]
  by_cases hskip : maintain ∧ v = 0
  · rw [if_pos hskip, if_pos hskip, hskip.2]
    simp
  · rw [if_neg hskip, if_neg hskip]
    simp

theorem numbers_numberIds (hn₀ : 0 < n) (hn : n ≤ 2 ^ 32) (hl : l.Perm (ids n))
    (hordered : (List.range n).map ordered = l) : Numbers n (newOrder maintain l) (numberIds maintain ordered mapping n).1 := by
  have hmem : (0 : UInt32) ∈ l := hl.mem_iff.mpr ((mem_ids hn).mpr hn₀)
  refine ⟨newOrder_perm maintain hn₀ hn hl, fun j hj => ?_⟩
  have hget := List.getElem?_eq_getElem hj
  rw [numberIds_eq_foldl, hordered]
  obtain ⟨hids, hzero, -⟩ := foldl_numberStep maintain (hl.nodup_iff.mpr (nodup_ids hn)) mapping
    (if maintain then 1 else 0)
  cases maintain with
  | false => rw [hids j _ hget, if_neg Bool.false_ne_true, Nat.zero_add]
  | true =>
    cases j with
    | zero => exact hzero rfl hmem
    | succ j => rw [hids j _ hget, if_pos rfl, Nat.add_comm]

end Loop

end GraphBenchmark
