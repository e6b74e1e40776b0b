import GraphBenchmark.Degree.Relabel

/-! # The order of the ids

The first loop numbers the keyed vertices by the numbers of their edges. The second loop puts the others behind them,
which is their place in the descending order, and in the ascending order is not. -/
namespace GraphBenchmark
open Bytes Positions
set_option autoImplicit false

/-- The degree `degree.py` counts: the edges held under `v`. -/
def degreeOf (args : DegreeArgs) (edges : List (ℕ × ℕ)) (v : ℕ) : ℕ := edges.countP fun e => keyOf args e = v

/-- The vertices the order is about: the endpoints, without `0` under `-m`. -/
def Ordered (args : DegreeArgs) (edges : List (ℕ × ℕ)) (v : ℕ) : Prop :=
  v ∈ endpoints edges ∧ ¬ (args.maintain = true ∧ v = 0)

/-- Of two vertices with different degrees, the one with more edges has the lower id, or with `-a` the higher one. -/
def OrdersByDegree (args : DegreeArgs) (edges : List (ℕ × ℕ)) (mapping : ℕ → Option ℕ) : Prop :=
  ∀ u v, Ordered args edges u → Ordered args edges v → degreeOf args edges v < degreeOf args edges u →
    ∃ i j, mapping u = some i ∧ mapping v = some j ∧ if args.ascending then j < i else i < j

/-! ## The degrees -/

section Degrees
variable {args : DegreeArgs} {d : List (ℕ × List ℕ)} {k k' v : ℕ} {vs : List ℕ} {edges : List (ℕ × ℕ)}

theorem mem_addEdge (hd : (d.map Prod.fst).Nodup) (h : (k', vs) ∈ addEdge d k v) :
    (k' ≠ k ∧ (k', vs) ∈ d) ∨
      (k' = k ∧ ((k ∉ d.map Prod.fst ∧ vs = [v]) ∨ ∃ ws, (k, ws) ∈ d ∧ vs = ws ++ [v])) := by
  induction d with
  | nil =>
    rw [addEdge, List.mem_singleton, Prod.mk.injEq] at h
    exact Or.inr ⟨h.1, Or.inl ⟨List.not_mem_nil, h.2⟩⟩
  | cons x rest ih =>
    obtain ⟨k₁, ws⟩ := x
    obtain ⟨hk₁, hrest⟩ := List.nodup_cons.mp hd
    unfold addEdge at h
    by_cases hk : k₁ = k
    · subst hk
      rw [if_pos rfl, List.mem_cons, Prod.mk.injEq] at h
      rcases h with ⟨rfl, rfl⟩ | h
      · exact Or.inr ⟨rfl, Or.inr ⟨ws, List.mem_cons_self, rfl⟩⟩
      · have hmem : k' ∈ rest.map Prod.fst := List.mem_map_of_mem h
        exact Or.inl ⟨fun heq => hk₁ (heq ▸ hmem), List.mem_cons_of_mem _ h⟩
    · rw [if_neg hk, List.mem_cons, Prod.mk.injEq] at h
      rcases h with ⟨rfl, rfl⟩ | h
      · exact Or.inl ⟨hk, List.mem_cons_self⟩
      · rcases ih hrest h with ⟨hne, hmem⟩ | ⟨heq, ⟨hnew, hvs⟩ | ⟨us, hus, hvs⟩⟩
        · exact Or.inl ⟨hne, List.mem_cons_of_mem _ hmem⟩
        · refine Or.inr ⟨heq, Or.inl ⟨?_, hvs⟩⟩
          rw [List.map_cons, List.mem_cons]
          exact not_or.mpr ⟨fun hc => hk hc.symm, hnew⟩
        · exact Or.inr ⟨heq, Or.inr ⟨us, List.mem_cons_of_mem _ hus, hvs⟩⟩

theorem degreeOf_append (args : DegreeArgs) (edges : List (ℕ × ℕ)) (e : ℕ × ℕ) (v : ℕ) :
    degreeOf args (edges ++ [e]) v = degreeOf args edges v + if keyOf args e = v then 1 else 0 := by
  rw [degreeOf, List.countP_append, List.countP_singleton]
  simp only [decide_eq_true_iff]
  rfl

theorem degreeOf_pos : 0 < degreeOf args edges v ↔ v ∈ edges.map (keyOf args) := by
  rw [degreeOf, List.countP_pos_iff, List.mem_map]
  simp only [decide_eq_true_iff]

theorem length_edgesByNode (h : (k, vs) ∈ edgesByNode args edges) : vs.length = degreeOf args edges k := by
  induction edges using List.reverseRecOn generalizing vs with
  | nil => exact absurd h List.not_mem_nil
  | append_singleton edges e ih =>
    obtain ⟨v, hv⟩ := groupEdge_eq args (edgesByNode args edges) e
    obtain ⟨hnodup, hkeys⟩ := edgesByNode_keys args edges
    rw [edgesByNode, List.foldl_append, List.foldl_cons, List.foldl_nil] at h
    change (k, vs) ∈ groupEdge args (edgesByNode args edges) e at h
    rw [hv] at h
    rw [degreeOf_append]
    rcases mem_addEdge hnodup h with ⟨hne, hmem⟩ | ⟨rfl, ⟨hnew, rfl⟩ | ⟨ws, hws, rfl⟩⟩
    · rw [if_neg fun hc => hne hc.symm, ih hmem]
      rfl
    · have hzero : degreeOf args edges (keyOf args e) = 0 := by
        by_contra hne
        exact hnew ((hkeys _).mpr (degreeOf_pos.mp (Nat.pos_of_ne_zero hne)))
      rw [if_pos rfl, hzero]
      rfl
    · rw [if_pos rfl, List.length_append, ih hws]
      rfl

/-- How two keys may stand one behind the other. -/
def DegreeLe (args : DegreeArgs) (edges : List (ℕ × ℕ)) (u v : ℕ) : Prop :=
  if args.ascending then degreeOf args edges u ≤ degreeOf args edges v
  else degreeOf args edges v ≤ degreeOf args edges u

theorem sortByLen_pairwise (args : DegreeArgs) (items : List (ℕ × List ℕ)) :
    (sortByLen args items).Pairwise fun x y =>
      if args.ascending then x.2.length ≤ y.2.length else y.2.length ≤ x.2.length := by
  refine (List.pairwise_mergeSort (fun x y z => ?_) (fun x y => ?_) items).imp fun {x y} hxy => ?_
  · cases args.ascending <;> simp <;> omega
  · cases args.ascending <;> simp <;> omega
  · cases ha : args.ascending <;> simpa [ha] using hxy

theorem sortedKeys_pairwise (args : DegreeArgs) (edges : List (ℕ × ℕ)) :
    (sortedKeys args edges).Pairwise (DegreeLe args edges) := by
  refine List.pairwise_map.mpr ((sortByLen_pairwise args (edgesByNode args edges)).imp_of_mem fun {x y} hx hy hxy => ?_)
  have hlen : ∀ z ∈ sortByLen args (edgesByNode args edges), z.2.length = degreeOf args edges z.1 := fun z hz =>
    length_edgesByNode ((List.mergeSort_perm _ _).mem_iff.mp hz)
  rw [hlen x hx, hlen y hy] at hxy
  exact hxy

end Degrees

/-! ## The ids -/

section Ids
variable {args : DegreeArgs} {edges : List (ℕ × ℕ)} {keep : Bool} {l : List ℕ} {s : DegreeState} {u v : ℕ}

theorem Final.mapping_of_ordered (h : Final args edges keep l s) (hv : Ordered args edges v) :
    v ∈ l ∧ s.mapping v = some (firstId args + l.idxOf v) := by
  have hkeep : ¬ (keep = true ∧ v = 0) := fun hc => hv.2 ⟨h.issued.maintain hc.1, hc.2⟩
  have hmem := ((h.mem_iff v).mp hv.1).resolve_right hkeep
  exact ⟨hmem, by rw [h.issued.mapping v, if_neg hkeep, numbered_of_mem hmem]⟩

/-- `u` has a lower id than `v`. -/
def Before (s : DegreeState) (u v : ℕ) : Prop := ∃ i j, s.mapping u = some i ∧ s.mapping v = some j ∧ i < j

theorem Final.before (h : Final args edges keep l s) (hu : Ordered args edges u) (hv : Ordered args edges v)
    (hlt : l.idxOf u < l.idxOf v) : Before s u v :=
  ⟨_, _, (h.mapping_of_ordered hu).2, (h.mapping_of_ordered hv).2, Nat.add_lt_add_left hlt _⟩

/-- The list of the first loop, without a kept `0`. -/
def keyedList (args : DegreeArgs) (edges : List (ℕ × ℕ)) : List ℕ :=
  (sortedKeys args edges).filter fun v => ¬ (args.maintain ∧ v = 0)

theorem mem_keyedList (hv : Ordered args edges v) : v ∈ keyedList args edges ↔ v ∈ edges.map (keyOf args) := by
  have hzero : ¬ (args.maintain ∧ v = 0) := hv.2
  rw [keyedList, List.mem_filter, mem_sortedKeys, decide_eq_true_iff]
  exact and_iff_left hzero

theorem before_of_keyed (hu : Ordered args edges u) (hv : Ordered args edges v) (hku : u ∈ edges.map (keyOf args))
    (hkv : v ∈ edges.map (keyOf args)) (hle : ¬ DegreeLe args edges v u) : Before (numberEdges args edges) u v := by
  obtain ⟨l', hfinal⟩ := numberEdges_final args edges
  have hmu := (mem_keyedList hu).mpr hku
  have hmv := (mem_keyedList hv).mpr hkv
  have hne : u ≠ v := by
    rintro rfl
    refine hle ?_
    unfold DegreeLe
    split <;> exact le_rfl
  have hsorted : (keyedList args edges).Pairwise (DegreeLe args edges) := (sortedKeys_pairwise args edges).filter _
  refine hfinal.before hu hv ?_
  change (keyedList args edges ++ l').idxOf u < (keyedList args edges ++ l').idxOf v
  rw [List.idxOf_append_of_mem hmu, List.idxOf_append_of_mem hmv]
  exact idxOf_lt_of_pairwise hsorted hmu hmv hne hle

theorem before_of_not_keyed (hu : Ordered args edges u) (hv : Ordered args edges v) (hku : u ∈ edges.map (keyOf args))
    (hkv : v ∉ edges.map (keyOf args)) : Before (numberEdges args edges) u v := by
  obtain ⟨l', hfinal⟩ := numberEdges_final args edges
  have hmu := (mem_keyedList hu).mpr hku
  have hmv : v ∉ keyedList args edges := fun hc => hkv ((mem_keyedList hv).mp hc)
  refine hfinal.before hu hv ?_
  change (keyedList args edges ++ l').idxOf u < (keyedList args edges ++ l').idxOf v
  rw [List.idxOf_append_of_mem hmu, List.idxOf_append_of_notMem hmv]
  exact Nat.lt_add_right _ (List.idxOf_lt_length_of_mem hmu)

theorem degreeOf_eq_zero (hv : v ∉ edges.map (keyOf args)) : degreeOf args edges v = 0 := by
  by_contra hne
  exact hv (degreeOf_pos.mp (Nat.pos_of_ne_zero hne))

theorem ordersByDegree_of_descending (ha : args.ascending = false) :
    OrdersByDegree args edges (numberEdges args edges).mapping := by
  intro u v hu hv hdeg
  have hku := degreeOf_pos.mp ((Nat.zero_le _).trans_lt hdeg)
  have hbefore : Before (numberEdges args edges) u v := by
    by_cases hkv : v ∈ edges.map (keyOf args)
    · refine before_of_keyed hu hv hku hkv fun hle => ?_
      rw [DegreeLe, ha, if_neg Bool.false_ne_true] at hle
      omega
    · exact before_of_not_keyed hu hv hku hkv
  obtain ⟨i, j, hi, hj, hij⟩ := hbefore
  exact ⟨i, j, hi, hj, by rwa [ha, if_neg Bool.false_ne_true]⟩

theorem ordersByDegree_of_ascending (ha : args.ascending = true)
    (h : (∀ v, Ordered args edges v → v ∈ edges.map (keyOf args)) ∨
      ∀ v, Ordered args edges v → v ∉ edges.map (keyOf args)) :
    OrdersByDegree args edges (numberEdges args edges).mapping := by
  intro u v hu hv hdeg
  have hku := degreeOf_pos.mp ((Nat.zero_le _).trans_lt hdeg)
  rcases h with hall | hnone
  · have hbefore : Before (numberEdges args edges) v u := by
      refine before_of_keyed hv hu (hall v hv) hku fun hle => ?_
      rw [DegreeLe, ha, if_pos rfl] at hle
      omega
    obtain ⟨i, j, hi, hj, hij⟩ := hbefore
    exact ⟨j, i, hj, hi, by rwa [ha, if_pos rfl]⟩
  · exact absurd hku (hnone u hu)

/-- In the ascending order a vertex without edges behind one with edges is out of its place. -/
theorem not_ordersByDegree (ha : args.ascending = true) (hu : Ordered args edges u) (hv : Ordered args edges v)
    (hku : u ∈ edges.map (keyOf args)) (hkv : v ∉ edges.map (keyOf args)) :
    ¬ OrdersByDegree args edges (numberEdges args edges).mapping := by
  intro h
  obtain ⟨i, j, hi, hj, hij⟩ := before_of_not_keyed hu hv hku hkv
  obtain ⟨i', j', hi', hj', hji⟩ := h u v hu hv (by rw [degreeOf_eq_zero hkv]; exact degreeOf_pos.mpr hku)
  rw [hi] at hi'
  rw [hj] at hj'
  rw [ha, if_pos rfl] at hji
  have := Option.some.inj hi'
  have := Option.some.inj hj'
  omega

end Ids

/-- `degree.py` orders the ids by degree without `-a`; with `-a` it does unless some vertices have edges that count and
some have none, vertex `0` aside under `-m`. -/
theorem ordersByDegree_iff (byteorder : ByteOrder) (args : DegreeArgs) (file : List UInt8) :
    OrdersByDegree args (readRecords byteorder file) (numberEdges args (readRecords byteorder file)).mapping ↔
      args.ascending = false ∨
        (∀ v, Ordered args (readRecords byteorder file) v → v ∈ (readRecords byteorder file).map (keyOf args)) ∨
        ∀ v, Ordered args (readRecords byteorder file) v → v ∉ (readRecords byteorder file).map (keyOf args) := by
  constructor
  · intro h
    cases ha : args.ascending with
    | false => exact Or.inl rfl
    | true =>
      refine Or.inr (or_iff_not_imp_right.mpr fun hsome v hv => ?_)
      obtain ⟨u, hu⟩ := not_forall.mp hsome
      obtain ⟨hou, hku⟩ := Classical.not_imp.mp hu
      by_contra hkv
      exact not_ordersByDegree ha hou hv (not_not.mp hku) hkv h
  · rintro (ha | h)
    · exact ordersByDegree_of_descending ha
    · cases ha : args.ascending with
      | false => exact ordersByDegree_of_descending ha
      | true => exact ordersByDegree_of_ascending ha h

/-- The edge from `1` to `2`, in ascending order: `2` has no out-edges, and the higher id. -/
theorem not_ordersByDegree_edge :
    ¬ ∀ (byteorder : ByteOrder) (args : DegreeArgs) (file : List UInt8), file.length % 8 = 0 →
      OrdersByDegree args (readRecords byteorder file) (numberEdges args (readRecords byteorder file)).mapping := by
  intro h
  have hsrc : Ordered ⟨false, true, false⟩ (readRecords .little [1, 0, 0, 0, 2, 0, 0, 0]) 1 := ⟨by decide, by decide⟩
  have hdst : Ordered ⟨false, true, false⟩ (readRecords .little [1, 0, 0, 0, 2, 0, 0, 0]) 2 := ⟨by decide, by decide⟩
  exact not_ordersByDegree rfl hsrc hdst (by decide) (by decide) (h _ _ _ rfl)

end GraphBenchmark
