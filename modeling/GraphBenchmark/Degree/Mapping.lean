import GraphBenchmark.Model.Degree
import GraphBenchmark.Foundations.Positions
import Mathlib.Data.List.Perm.Basic

/-! # The two numbering loops

The ids follow one list of vertices: the keyed ones in sorted order, and behind them the other endpoints as they
appear. With `-m`, vertex `0` keeps its id when it is keyed. -/
namespace GraphBenchmark
open Positions
set_option autoImplicit false

theorem nodup_append_new {α : Type*} {l : List α} {v : α} (hl : l.Nodup) (hv : v ∉ l) : (l ++ [v]).Nodup :=
  List.nodup_append.mpr ⟨hl, List.nodup_singleton v, fun _ ha _ hb hab => hv (List.mem_singleton.mp hb ▸ hab ▸ ha)⟩

/-! ## The keys -/

/-- The vertex `edges_by_node` holds an edge under. -/
def keyOf (args : DegreeArgs) (e : ℕ × ℕ) : ℕ := if args.indegree then e.2 else e.1

section Keys
variable {args : DegreeArgs} {d : List (ℕ × List ℕ)} {k v u : ℕ} {edges : List (ℕ × ℕ)}

theorem addEdge_keys :
    (addEdge d k v).map Prod.fst = if k ∈ d.map Prod.fst then d.map Prod.fst else d.map Prod.fst ++ [k] := by
  induction d with
  | nil => rfl
  | cons x rest ih =>
    obtain ⟨k', vs⟩ := x
    unfold addEdge
    by_cases hk : k' = k
    · simp [hk]
    · have hmem : k ∈ ((k', vs) :: rest).map Prod.fst ↔ k ∈ rest.map Prod.fst := by
        simp [Ne.symm hk]
      rw [if_neg hk, List.map_cons, ih]
      simp only [hmem]
      split <;> rfl

theorem groupEdge_eq (args : DegreeArgs) (d : List (ℕ × List ℕ)) (e : ℕ × ℕ) :
    ∃ v, groupEdge args d e = addEdge d (keyOf args e) v := by
  unfold groupEdge keyOf
  split
  · exact ⟨e.1, rfl⟩
  · exact ⟨e.2, rfl⟩

/-- The keys are distinct, and they are the vertices the edges are held under. -/
theorem keys_foldl (hd : (d.map Prod.fst).Nodup) :
    ((edges.foldl (groupEdge args) d).map Prod.fst).Nodup ∧
      ∀ u, u ∈ (edges.foldl (groupEdge args) d).map Prod.fst ↔ u ∈ d.map Prod.fst ∨ u ∈ edges.map (keyOf args) := by
  induction edges generalizing d with
  | nil => exact ⟨hd, fun u => by simp⟩
  | cons e edges ih =>
    obtain ⟨v, hv⟩ := groupEdge_eq args d e
    have hkeys := addEdge_keys (d := d) (k := keyOf args e) (v := v)
    have hnodup : ((addEdge d (keyOf args e) v).map Prod.fst).Nodup := by
      rw [hkeys]
      split
      · exact hd
      · rename_i hmem
        exact nodup_append_new hd hmem
    have hiff : ∀ u, u ∈ (addEdge d (keyOf args e) v).map Prod.fst ↔ u ∈ d.map Prod.fst ∨ u = keyOf args e := by
      intro u
      rw [hkeys]
      split
      · rename_i hmem
        exact ⟨Or.inl, fun hu => hu.elim id fun heq => heq ▸ hmem⟩
      · rw [List.mem_append, List.mem_singleton]
    rw [List.foldl_cons, hv]
    refine ⟨(ih hnodup).1, fun u => ?_⟩
    rw [(ih hnodup).2 u, hiff, List.map_cons, List.mem_cons, or_assoc]

theorem edgesByNode_keys (args : DegreeArgs) (edges : List (ℕ × ℕ)) :
    ((edgesByNode args edges).map Prod.fst).Nodup ∧
      ∀ u, u ∈ (edgesByNode args edges).map Prod.fst ↔ u ∈ edges.map (keyOf args) := by
  obtain ⟨hnodup, hmem⟩ := keys_foldl (d := []) List.nodup_nil
  refine ⟨hnodup, fun u => (hmem u).trans ?_⟩
  simp only [List.map_nil, List.not_mem_nil, false_or]

/-- The keys in the order of the first loop. -/
def sortedKeys (args : DegreeArgs) (edges : List (ℕ × ℕ)) : List ℕ :=
  (sortByLen args (edgesByNode args edges)).map Prod.fst

theorem sortedKeys_perm : (sortedKeys args edges).Perm ((edgesByNode args edges).map Prod.fst) :=
  (List.mergeSort_perm _ _).map _

theorem nodup_sortedKeys : (sortedKeys args edges).Nodup :=
  sortedKeys_perm.nodup_iff.mpr (edgesByNode_keys args edges).1

theorem mem_sortedKeys : u ∈ sortedKeys args edges ↔ u ∈ edges.map (keyOf args) := by
  rw [sortedKeys_perm.mem_iff, (edgesByNode_keys args edges).2 u]

end Keys

/-! ## The ids -/

/-- The ids handed out so far are the positions in `l`, behind the id of a kept vertex `0`. -/
structure Issued (args : DegreeArgs) (keep : Bool) (l : List ℕ) (s : DegreeState) : Prop where
  maintain : keep = true → args.maintain = true
  nodup : l.Nodup
  zero : keep = true → 0 ∉ l
  mapping : ∀ v, s.mapping v = if keep = true ∧ v = 0 then some 0 else numbered (firstId args) l v
  count : s.count = firstId args + l.length

section Ids
variable {args : DegreeArgs} {keep : Bool} {l : List ℕ} {s : DegreeState} {v : ℕ}

theorem issued_init (args : DegreeArgs) : Issued args false [] (DegreeState.init args) where
  maintain := fun h => by cases h
  nodup := List.nodup_nil
  zero := fun _ => List.not_mem_nil
  mapping := fun v => by simp [DegreeState.init, numbered_nil]
  count := rfl

theorem Issued.mapping_eq_none_iff (h : Issued args keep l s) :
    s.mapping v = none ↔ v ∉ l ∧ ¬ (keep = true ∧ v = 0) := by
  rw [h.mapping v]
  split
  · rename_i hkeep
    exact iff_of_false (by simp) fun hnot => hnot.2 hkeep
  · rename_i hkeep
    rw [numbered_eq_none_iff]
    exact ⟨fun hv => ⟨hv, hkeep⟩, And.left⟩

theorem Issued.next (h : Issued args keep l s) (hv : s.mapping v = none) :
    Issued args keep (l ++ [v])
      { s with mapping := Function.update s.mapping v (some s.count), count := s.count + 1 } := by
  obtain ⟨hl, hkeep⟩ := h.mapping_eq_none_iff.mp hv
  refine ⟨h.maintain, ?_, fun hk => ?_, fun u => ?_, ?_⟩
  · exact nodup_append_new h.nodup hl
  · rw [List.mem_append, List.mem_singleton]
    rintro (hz | hz)
    · exact h.zero hk hz
    · exact hkeep ⟨hk, hz.symm⟩
  · show Function.update s.mapping v (some s.count) u = _
    rw [numbered_append_new hl, h.count]
    by_cases huv : u = v
    · rw [huv, Function.update_self, Function.update_self, if_neg hkeep]
    · rw [Function.update_of_ne huv, Function.update_of_ne huv, h.mapping u]
  · show s.count + 1 = _
    rw [h.count, List.length_append, List.length_singleton, Nat.add_assoc]

theorem Issued.keepZero (h : Issued args keep l s) (hm : args.maintain = true) (hv : s.mapping 0 = none) :
    Issued args true l { s with mapping := Function.update s.mapping 0 (some 0) } := by
  obtain ⟨hl, hkeep⟩ := h.mapping_eq_none_iff.mp hv
  refine ⟨fun _ => hm, h.nodup, fun _ => hl, fun u => ?_, h.count⟩
  show Function.update s.mapping 0 (some 0) u = _
  by_cases hu : u = 0
  · rw [hu, Function.update_self, if_pos ⟨rfl, rfl⟩]
  · have hnot : ∀ b : Bool, ¬ (b = true ∧ u = 0) := fun _ hc => hu hc.2
    rw [Function.update_of_ne hu, h.mapping u, if_neg (hnot keep), if_neg (hnot true)]

/-! ## The first loop -/

theorem Issued.keyed (h : Issued args keep l s) (keys : List ℕ) (hkeys : keys.Nodup)
    (hnew : ∀ v ∈ keys, s.mapping v = none) :
    Issued args (keep || (args.maintain && decide (0 ∈ keys))) (l ++ keys.filter fun v => ¬ (args.maintain ∧ v = 0))
      (keys.foldl (numberKeyed args) s) := by
  induction keys generalizing keep l s with
  | nil => simpa using h
  | cons k keys ih =>
    obtain ⟨hk, hrestkeys⟩ := List.nodup_cons.mp hkeys
    have hnone := hnew k List.mem_cons_self
    have hlater : ∀ i : Option ℕ, ∀ v ∈ keys, Function.update s.mapping k i v = none := fun i v hv => by
      have hvk : v ≠ k := fun heq => hk (by rwa [heq] at hv)
      rw [Function.update_of_ne hvk]
      exact hnew v (List.mem_cons_of_mem k hv)
    rw [List.foldl_cons, numberKeyed, List.filter_cons]
    by_cases hzero : args.maintain ∧ k = 0
    · obtain ⟨hmaintain, rfl⟩ := hzero
      have hrest := ih (h.keepZero hmaintain hnone) hrestkeys (hlater _)
      have hnumber : args.maintain = true ∧ 0 = 0 := ⟨hmaintain, rfl⟩
      rw [if_pos hnumber, if_neg (by simp [hmaintain])]
      simpa [hmaintain] using hrest
    · have hflag : (args.maintain && decide (0 ∈ k :: keys)) = (args.maintain && decide (0 ∈ keys)) := by
        cases hm : args.maintain with
        | false => rfl
        | true =>
          have hk0 : 0 ≠ k := fun heq => hzero ⟨hm, heq.symm⟩
          simp [hk0]
      have hrest := ih (h.next hnone) hrestkeys (hlater _)
      rw [List.append_assoc, List.singleton_append] at hrest
      rw [if_neg hzero, if_pos (decide_eq_true hzero), hflag]
      exact hrest

theorem keyed_output (args : DegreeArgs) (keys : List ℕ) (s : DegreeState) :
    (keys.foldl (numberKeyed args) s).sortedOutput = s.sortedOutput := by
  induction keys generalizing s with
  | nil => rfl
  | cons k keys ih =>
    rw [List.foldl_cons, ih]
    unfold numberKeyed
    split <;> rfl

/-! ## The second loop -/

/-- What the second loop has done with the edges it has gone over. -/
structure Emitted (args : DegreeArgs) (keep : Bool) (l : List ℕ) (edges : List (ℕ × ℕ)) (s s' : DegreeState) : Prop where
  issued : ∃ l', Issued args keep (l ++ l') s' ∧ ∀ v ∈ l', v ∈ edges.map Prod.fst ∨ v ∈ edges.map Prod.snd
  old : ∀ v, s.mapping v ≠ none → s'.mapping v = s.mapping v
  new : ∀ e ∈ edges, s'.mapping e.1 ≠ none ∧ s'.mapping e.2 ≠ none
  output : s'.sortedOutput = s.sortedOutput ++ edges.map fun e => (s'.mapping e.1, s'.mapping e.2)

theorem numberNew_cases (s : DegreeState) (v : ℕ) :
    (s.mapping v ≠ none ∧ numberNew s v = s) ∨
      (s.mapping v = none ∧
        numberNew s v = { s with mapping := Function.update s.mapping v (some s.count), count := s.count + 1 }) := by
  unfold numberNew
  split
  · rename_i hv
    exact Or.inr ⟨hv, rfl⟩
  · rename_i i hv
    exact Or.inl ⟨by rw [hv]; exact Option.some_ne_none i, rfl⟩

theorem Issued.numberNew (h : Issued args keep l s) (v : ℕ) :
    ∃ l', Issued args keep (l ++ l') (numberNew s v) ∧ (∀ u ∈ l', u = v) ∧ (GraphBenchmark.numberNew s v).mapping v ≠ none ∧
      (∀ u, s.mapping u ≠ none → (GraphBenchmark.numberNew s v).mapping u = s.mapping u) ∧
      (GraphBenchmark.numberNew s v).sortedOutput = s.sortedOutput := by
  rcases numberNew_cases s v with ⟨hv, heq⟩ | ⟨hv, heq⟩
  · rw [heq]
    exact ⟨[], by rwa [List.append_nil], fun u hu => absurd hu List.not_mem_nil, hv, fun _ _ => rfl, rfl⟩
  · rw [heq]
    refine ⟨[v], h.next hv, fun u hu => List.mem_singleton.mp hu, ?_, fun u hu => ?_, rfl⟩
    · show Function.update s.mapping v (some s.count) v ≠ none
      rw [Function.update_self]
      exact Option.some_ne_none _
    · have huv : u ≠ v := fun huv => hu (huv ▸ hv)
      exact Function.update_of_ne huv _ _

theorem Issued.emitEdge (h : Issued args keep l s) (e : ℕ × ℕ) : Emitted args keep l [e] s (emitEdge s e) := by
  obtain ⟨l₁, h₁, hl₁, hsrc, hold₁, hout₁⟩ := h.numberNew e.1
  obtain ⟨l₂, h₂, hl₂, hdst, hold₂, hout₂⟩ := h₁.numberNew e.2
  refine ⟨⟨l₁ ++ l₂, ?_, fun v hv => ?_⟩, fun v hv => ?_, fun e' he' => ?_, ?_⟩
  · rw [← List.append_assoc]
    exact ⟨h₂.maintain, h₂.nodup, h₂.zero, h₂.mapping, h₂.count⟩
  · rcases List.mem_append.mp hv with hv | hv
    · exact Or.inl (by simp [hl₁ v hv])
    · exact Or.inr (by simp [hl₂ v hv])
  · show (GraphBenchmark.numberNew (GraphBenchmark.numberNew s e.1) e.2).mapping v = s.mapping v
    rw [hold₂ v (by rw [hold₁ v hv]; exact hv), hold₁ v hv]
  · obtain rfl := List.mem_singleton.mp he'
    refine ⟨?_, hdst⟩
    show (GraphBenchmark.numberNew (GraphBenchmark.numberNew s e'.1) e'.2).mapping e'.1 ≠ none
    rw [hold₂ _ hsrc]
    exact hsrc
  · show (GraphBenchmark.numberNew (GraphBenchmark.numberNew s e.1) e.2).sortedOutput ++ _ = _
    rw [hout₂, hout₁]
    rfl

theorem Emitted.trans {edges edges' : List (ℕ × ℕ)} {s' s'' : DegreeState} (h : Emitted args keep l edges s s')
    (h' : ∀ l', Issued args keep (l ++ l') s' → Emitted args keep (l ++ l') edges' s' s'') :
    Emitted args keep l (edges ++ edges') s s'' := by
  obtain ⟨l₁, h₁, hl₁⟩ := h.issued
  have htail := h' l₁ h₁
  obtain ⟨l₂, h₂, hl₂⟩ := htail.issued
  refine ⟨⟨l₁ ++ l₂, by rwa [← List.append_assoc], fun v hv => ?_⟩, fun v hv => ?_, fun e he => ?_, ?_⟩
  · rw [List.map_append, List.map_append, List.mem_append, List.mem_append]
    rcases List.mem_append.mp hv with hv | hv
    · exact (hl₁ v hv).imp Or.inl Or.inl
    · exact (hl₂ v hv).imp Or.inr Or.inr
  · rw [htail.old v (by rw [h.old v hv]; exact hv), h.old v hv]
  · rcases List.mem_append.mp he with he | he
    · obtain ⟨hsrc, hdst⟩ := h.new e he
      exact ⟨by rw [htail.old _ hsrc]; exact hsrc, by rw [htail.old _ hdst]; exact hdst⟩
    · exact htail.new e he
  · rw [htail.output, h.output, List.map_append, List.append_assoc]
    congr 2
    refine List.map_congr_left fun e he => ?_
    obtain ⟨hsrc, hdst⟩ := h.new e he
    rw [htail.old _ hsrc, htail.old _ hdst]

theorem Issued.emitted (h : Issued args keep l s) (edges : List (ℕ × ℕ)) :
    Emitted args keep l edges s (edges.foldl GraphBenchmark.emitEdge s) := by
  induction edges generalizing l s with
  | nil =>
    exact ⟨⟨[], by rwa [List.append_nil], fun v hv => absurd hv List.not_mem_nil⟩, fun _ _ => rfl,
      fun e he => absurd he List.not_mem_nil, (List.append_nil _).symm⟩
  | cons e edges ih => exact (h.emitEdge e).trans fun l' h' => ih h'

end Ids

end GraphBenchmark
