import GraphBenchmark.Reorder.Run
import GraphBenchmark.Foundations.Sorting

/-! # What `malloc` returned

`out_edge_offsets` is counted up from whatever `malloc` returned, and the order compares the sums. With `std::sort` a
fixed function, the output is the same for two contents exactly when the comparators agree on the entries, or when no
endpoint ties and each has the same rank under both. -/
namespace GraphBenchmark
open Interleaving Sorting
set_option autoImplicit false

/-! ## The id of an entry -/

/-- The id the numbering loop gives `v` for the order `l`. -/
def newId (maintain : Bool) (l : List UInt32) (v : UInt32) : UInt32 :=
  (l.foldl (numberStep maintain) (fun _ => 0, if maintain then 1 else 0)).1 v.toNat

/-- No other renumbered entry ties with `v`. -/
def Untied (maintain : Bool) (lt : UInt32 → UInt32 → Bool) (entries : List UInt32) (v : UInt32) : Prop :=
  ∀ w ∈ renumbered maintain entries, w ≠ v → lt w v = true ∨ lt v w = true

instance (maintain : Bool) (lt : UInt32 → UInt32 → Bool) (entries : List UInt32) (v : UInt32) :
    Decidable (Untied maintain lt entries v) :=
  List.decidableBAll (fun w => w ≠ v → lt w v = true ∨ lt v w = true) (renumbered maintain entries)

/-- The number of renumbered entries before `v`. -/
def rankOf (maintain : Bool) (lt : UInt32 → UInt32 → Bool) (entries : List UInt32) (v : UInt32) : ℕ :=
  (renumbered maintain entries).countP fun w => lt w v

section Ids
variable {maintain : Bool} {lt : UInt32 → UInt32 → Bool} {entries l : List UInt32} {v w : UInt32}

theorem newId_eq (hv : v ∈ l) (m : ℕ → UInt32) :
    (l.foldl (numberStep maintain) (m, if maintain then 1 else 0)).1 v.toNat = newId maintain l v := by
  obtain ⟨pre, post, rfl, hpost⟩ := exists_last_split hv
  rw [newId, foldl_numberStep_last hpost, foldl_numberStep_last hpost]

theorem newId_last {pre post : List UInt32} (hv : v ∉ post) (hkeep : ¬ (maintain ∧ v = 0)) :
    newId maintain (pre ++ v :: post) v =
      UInt32.ofNat ((if maintain then 1 else 0) + (renumbered maintain pre).length) := by
  rw [newId, foldl_numberStep_last hv, if_neg hkeep]

theorem mem_renumbered : w ∈ renumbered maintain l ↔ w ∈ l ∧ ¬ (maintain ∧ w = 0) := by
  rw [renumbered, List.mem_filter, decide_eq_true_iff]

theorem renumbered_append (l l' : List UInt32) :
    renumbered maintain (l ++ l') = renumbered maintain l ++ renumbered maintain l' := List.filter_append ..

/-- Where nothing ties with `v`, what stands before its last place comes before it or is `v` again. -/
theorem length_before {pre post : List UInt32} (hlt : StrictWeak lt) (hl : (pre ++ v :: post).Perm entries)
    (hsorted : SortedBy lt (pre ++ v :: post)) (hpost : v ∉ post) (hkeep : ¬ (maintain ∧ v = 0))
    (huntied : Untied maintain lt entries v) :
    (renumbered maintain pre).length + 1 = rankOf maintain lt entries v + entries.count v := by
  unfold SortedBy at hsorted
  rw [List.pairwise_append, List.pairwise_cons] at hsorted
  obtain ⟨-, ⟨hafter, -⟩, hmix⟩ := hsorted
  have hirrefl := hlt.irrefl v
  have hrank : rankOf maintain lt entries v = (renumbered maintain pre).countP fun w => lt w v := by
    have hperm : (renumbered maintain (pre ++ v :: post)).Perm (renumbered maintain entries) := hl.filter _
    have hzero : (renumbered maintain post).countP (fun w => lt w v) = 0 := by
      refine List.countP_eq_zero.mpr fun w hw => ?_
      rw [hafter w (mem_renumbered.mp hw).1]
      exact Bool.false_ne_true
    rw [rankOf, ← hperm.countP_eq, renumbered_append, List.countP_append, renumbered_cons, if_neg hkeep,
      List.countP_cons, hzero, hirrefl]
    simp
  have hcount : entries.count v = (renumbered maintain pre).count v + 1 := by
    have hpre : (renumbered maintain pre).count v = pre.count v := List.count_filter (decide_eq_true hkeep)
    rw [← hl.count_eq, List.count_append, List.count_cons_self, List.count_eq_zero.mpr hpost, hpre]
  have hlength : (renumbered maintain pre).length =
      (renumbered maintain pre).countP (fun w => lt w v) + (renumbered maintain pre).count v := by
    rw [List.length_eq_countP_add_countP fun w => lt w v]
    congr 1
    refine List.countP_congr fun w hw => ?_
    obtain ⟨hwpre, hwkeep⟩ := mem_renumbered.mp hw
    have hmem : w ∈ renumbered maintain entries :=
      mem_renumbered.mpr ⟨hl.mem_iff.mp (List.mem_append_left _ hwpre), hwkeep⟩
    by_cases hwv : w = v
    · simp [hwv, hirrefl]
    · have hbefore := hmix w hwpre v List.mem_cons_self
      have hlt' := (huntied w hmem hwv).resolve_right (by rw [hbefore]; exact Bool.false_ne_true)
      simp [hlt', hwv]
  omega

/-- Without ties, the id is determined by the rank. -/
theorem newId_of_untied (hlt : StrictWeak lt) (hl : l.Perm entries) (hsorted : SortedBy lt l) (hv : v ∈ entries)
    (hkeep : ¬ (maintain ∧ v = 0)) (huntied : Untied maintain lt entries v) :
    newId maintain l v + 1 =
      UInt32.ofNat ((if maintain then 1 else 0) + (rankOf maintain lt entries v + entries.count v)) := by
  obtain ⟨pre, post, rfl, hpost⟩ := exists_last_split (hl.mem_iff.mpr hv)
  rw [← length_before hlt hl hsorted hpost hkeep huntied, newId_last hpost hkeep, ← Nat.add_assoc, UInt32.ofNat_add _ 1]
  rfl

/-- A tie leaves the id open. -/
theorem untied_of_newId_eq (hlt : StrictWeak lt) (hv : v ∈ entries) (hkeep : ¬ (maintain ∧ v = 0)) {x : UInt32}
    (hall : ∀ l : List UInt32, l.Perm entries → SortedBy lt l → newId maintain l v = x) :
    Untied maintain lt entries v := by
  intro w hw hwv
  obtain ⟨hwmem, hwkeep⟩ := mem_renumbered.mp hw
  by_contra hnot
  obtain ⟨hwv', hvw'⟩ := not_or.mp hnot
  rw [Bool.not_eq_true] at hwv' hvw'
  obtain ⟨pre, post, hpost, hperm, hsorted⟩ := exists_tied_split hlt hv hwmem (Ne.symm hwv) hvw' hwv'
  have hfirst := hall _ hperm hsorted
  have hsecond := hall (pre ++ w :: v :: post) ((List.Perm.append_left pre (List.Perm.swap v w post)).trans hperm)
    (hsorted.swap hvw')
  have hpost' : v ∉ w :: post := List.not_mem_cons_of_ne_of_not_mem (Ne.symm hwv) hpost
  have hmoved : pre ++ w :: v :: post = (pre ++ [w]) ++ v :: post := (List.append_cons pre w _)
  have hone : renumbered maintain [w] = [w] := by
    rw [renumbered_cons, if_neg hwkeep]
    rfl
  rw [hmoved, newId_last hpost hkeep, renumbered_append, hone, List.length_append, List.length_singleton,
    ← Nat.add_assoc, UInt32.ofNat_add _ 1] at hsecond
  rw [newId_last hpost' hkeep, ← hsecond] at hfirst
  simp at hfirst

end Ids

/-! ## Runs with one `std::sort` -/

/-- The call of `std::sort` returns what `stdSort` returns. -/
def usesSort (stdSort : StdSort UInt32) (n : ℕ) (ascending : Bool) (s : SortState) : SortAct → Bool
  | .sort l => decide (l = stdSort.apply (comesBefore ascending s.outEdgeOffsets) ((List.range n).map s.ordered))
  | _ => true

/-- The file written when the entries are sorted into `l`. -/
def EdgeFile.renamed (file : EdgeFile) (maintain : Bool) (l : List UInt32) : EdgeFile where
  edges := file.edges.map fun e => ⟨newId maintain l e.src, newId maintain l e.dst⟩
  size_lt := by rw [List.length_map]; exact file.size_lt

section Runs
variable {file : EdgeFile} {n : ℕ} {ascending maintain : Bool} {mem : ℕ → UInt32} {stdSort : StdSort UInt32}
  {s s' : SortState}

theorem comesBefore_strictWeak (ascending : Bool) (cells : ℕ → UInt32) : StrictWeak (comesBefore ascending cells) := by
  constructor
  · intro a b hab
    rw [← Bool.not_eq_true, comesBefore_iff]
    exact Nat.lt_asymm (comesBefore_iff.mp hab)
  · intro a b c hab hbc
    rw [← Bool.not_eq_true, comesBefore_iff, Nat.not_lt] at hab hbc ⊢
    exact hbc.trans hab

theorem mem_ids_of_lt {v : UInt32} (hv : v.toNat < n) : v ∈ ids n :=
  List.mem_map.mpr ⟨v.toNat, List.mem_range.mpr hv, UInt32.ofNat_toNat⟩

/-- The order `std::sort` returns in the end. -/
def sortedIds (stdSort : StdSort UInt32) (file : EdgeFile) (n : ℕ) (ascending : Bool) (mem : ℕ → UInt32) :
    List UInt32 := stdSort.apply (comesBefore ascending (file.counters mem)) (ids n)

theorem sortedIds_perm : (sortedIds stdSort file n ascending mem).Perm (ids n) :=
  stdSort.perm _ _ (comesBefore_strictWeak _ _)

/-- `mapping` holds the new id of every entry. -/
def HoldsIds (maintain : Bool) (l : List UInt32) (mapping : ℕ → UInt32) : Prop :=
  ∀ v ∈ l, mapping v.toNat = newId maintain l v

theorem holdsIds_numberIds {l : List UInt32} (hl : l.length = n) (ordered mapping : ℕ → UInt32) :
    HoldsIds maintain l (numberIds maintain (fun i => l.getD i (ordered i)) mapping n).1 := by
  intro v hv
  rw [numberIds_eq_foldl, map_getD_eq ordered hl]
  exact newId_eq hv mapping

theorem sortAt_provided {a : SortAct}
    (h : SortAt file n mem (HoldsIds maintain (sortedIds stdSort file n ascending mem)) s)
    (ha : provided (usesSort stdSort n ascending) (sortByDegree n file.nbEdges ascending maintain) s a = some s') :
    SortAt file n mem (HoldsIds maintain (sortedIds stdSort file n ascending mem)) s' := by
  obtain ⟨hok, ha⟩ := provided_eq_some.mp ha
  refine sortAt_step h (sortByDegree_step ha) fun hp => ?_
  simp only [SortAt, hp] at h
  obtain ⟨-, hcount, hordered⟩ := h
  cases a with
  | sort l =>
    have hl : l = sortedIds stdSort file n ascending mem := by
      rw [sortedIds, ← hcount, ← hordered]
      exact of_decide_eq_true hok
    have hlen : l.length = n := by
      rw [hl, sortedIds_perm.length_eq, ids, List.length_map, List.length_range]
    rw [← hl]
    simp only [sortByDegree] at ha
    split at ha
    · cases ha
      exact holdsIds_numberIds hlen s.ordered s.mapping
    · cases ha
  | _ => simp [sortByDegree, hp] at ha

theorem sorts (stdSort : StdSort UInt32) (m : ℕ) (hp : s.pc = .sort) :
    ∃ a, provided (usesSort stdSort n ascending) (sortByDegree n m ascending maintain) s a ≠ none := by
  have hstrict := comesBefore_strictWeak ascending s.outEdgeOffsets
  refine ⟨.sort (stdSort.apply (comesBefore ascending s.outEdgeOffsets) ((List.range n).map s.ordered)), ?_⟩
  rw [provided, if_pos (by exact decide_eq_true rfl), sortByDegree,
    if_pos ⟨hp, stdSort.perm _ _ hstrict, stdSort.sorted _ _ hstrict⟩]
  exact Option.some_ne_none _

theorem provided_stuck {m : ℕ}
    (hn : ∀ a, provided (usesSort stdSort n ascending) (sortByDegree n m ascending maintain) s a = none) :
    s.pc = .done := by
  refine @sortByDegree_stuck n ascending maintain s m fun a => ?_
  cases a with
  | sort l =>
    refine if_neg fun h => ?_
    obtain ⟨a, ha⟩ := sorts stdSort m h.1
    exact ha (hn a)
  | launch rs => exact hn (.launch rs)
  | work i => exact hn (.work i)
  | join => exact hn .join

theorem SortAt.output_eq (hfile : file.EndpointsBelow n)
    (h : SortAt file n mem (HoldsIds maintain (sortedIds stdSort file n ascending mem)) s) (hp : s.pc = .done) :
    s.output file = file.renamed maintain (sortedIds stdSort file n ascending mem) := by
  obtain ⟨hids, hout⟩ := h.done hp
  have hedges : (s.output file).edges = (file.renamed maintain (sortedIds stdSort file n ascending mem)).edges := by
    rw [hout]
    refine List.map_congr_left fun e he => ?_
    obtain ⟨hsrc, hdst⟩ := hfile e he
    rw [Edge.relabel, hids e.src (sortedIds_perm.mem_iff.mpr (mem_ids_of_lt hsrc)),
      hids e.dst (sortedIds_perm.mem_iff.mpr (mem_ids_of_lt hdst))]
  generalize s.output file = out at hedges
  obtain ⟨edges, hsize⟩ := out
  subst hedges
  rfl

/-- `sort_by_degree` is done and has written `out`. -/
def SortState.Wrote (file out : EdgeFile) (s : SortState) : Prop := s.pc = .done ∧ s.output file = out

/-- Every run writes the file renamed by the order `stdSort` returns. -/
theorem sort_writes (stdSort : StdSort UInt32) (ascending maintain : Bool) (hfile : file.EndpointsBelow n)
    (mem ordered mapping : ℕ → UInt32) :
    Ends (provided (usesSort stdSort n ascending) (sortByDegree n file.nbEdges ascending maintain))
      (SortState.init file mem ordered mapping)
      (SortState.Wrote file (file.renamed maintain (sortedIds stdSort file n ascending mem))) := by
  refine ends_of_invariant (Prod.lex Nat.lt_wfRel Nat.lt_wfRel).wf SortState.measure
    (fun _ _ _ hu ha => sortAt_provided hu ha)
    (fun _ _ _ _ ha => (sortByDegree_step (provided_eq_some.mp ha).2).measure_lt) (fun s hs hn => ?_) ⟨rfl, rfl⟩
  have hp := provided_stuck hn
  exact ⟨hp, hs.output_eq hfile hp⟩

/-! ## Two runs -/

/-- From both states every run ends, and with the same file. -/
def WritesSame (stdSort : StdSort UInt32) (file : EdgeFile) (n : ℕ) (ascending maintain : Bool)
    (s₁ s₂ : SortState) : Prop :=
  ∃ out : EdgeFile,
    Ends (provided (usesSort stdSort n ascending) (sortByDegree n file.nbEdges ascending maintain)) s₁
      (SortState.Wrote file out) ∧
    Ends (provided (usesSort stdSort n ascending) (sortByDegree n file.nbEdges ascending maintain)) s₂
      (SortState.Wrote file out)

/-- Every endpoint that gets a new id ties with no other and has the same rank under both contents. -/
def RanksAgree (file : EdgeFile) (n : ℕ) (ascending maintain : Bool) (mem₁ mem₂ : ℕ → UInt32) : Prop :=
  ∀ e ∈ file.edges, ∀ v ∈ [e.src, e.dst], ¬ (maintain ∧ v = 0) →
    Untied maintain (comesBefore ascending (file.counters mem₁)) (ids n) v ∧
    Untied maintain (comesBefore ascending (file.counters mem₂)) (ids n) v ∧
    UInt32.ofNat (rankOf maintain (comesBefore ascending (file.counters mem₁)) (ids n) v) =
      UInt32.ofNat (rankOf maintain (comesBefore ascending (file.counters mem₂)) (ids n) v)

instance (file : EdgeFile) (n : ℕ) (ascending maintain : Bool) (mem₁ mem₂ : ℕ → UInt32) :
    Decidable (RanksAgree file n ascending maintain mem₁ mem₂) :=
  have (e : Edge) : Decidable (∀ v ∈ [e.src, e.dst], ¬ (maintain ∧ v = 0) →
      Untied maintain (comesBefore ascending (file.counters mem₁)) (ids n) v ∧
      Untied maintain (comesBefore ascending (file.counters mem₂)) (ids n) v ∧
      UInt32.ofNat (rankOf maintain (comesBefore ascending (file.counters mem₁)) (ids n) v) =
        UInt32.ofNat (rankOf maintain (comesBefore ascending (file.counters mem₂)) (ids n) v)) := List.decidableBAll _ _
  List.decidableBAll _ file.edges

variable {mem₁ mem₂ : ℕ → UInt32}

theorem renamed_eq_iff {l₁ l₂ : List UInt32} : file.renamed maintain l₁ = file.renamed maintain l₂ ↔
    ∀ e ∈ file.edges, ∀ v ∈ [e.src, e.dst], newId maintain l₁ v = newId maintain l₂ v := by
  rw [EdgeFile.renamed, EdgeFile.renamed, EdgeFile.mk.injEq, List.map_inj_left]
  refine forall₂_congr fun e _ => ?_
  rw [Edge.mk.injEq]
  simp

theorem writesSame_iff (hfile : file.EndpointsBelow n) (ordered₁ mapping₁ ordered₂ mapping₂ : ℕ → UInt32) :
    WritesSame stdSort file n ascending maintain (SortState.init file mem₁ ordered₁ mapping₁)
        (SortState.init file mem₂ ordered₂ mapping₂) ↔
      ∀ e ∈ file.edges, ∀ v ∈ [e.src, e.dst], newId maintain (sortedIds stdSort file n ascending mem₁) v =
        newId maintain (sortedIds stdSort file n ascending mem₂) v :=
  (exists_common_iff (P := SortState.Wrote file) (fun _ _ _ hx hy => hx.2.symm.trans hy.2)
    (sort_writes stdSort ascending maintain hfile mem₁ ordered₁ mapping₁)
    (sort_writes stdSort ascending maintain hfile mem₂ ordered₂ mapping₂)).trans renamed_eq_iff

theorem newId_zero {l : List UInt32} (hv : (0 : UInt32) ∈ l) : newId true l 0 = 0 := by
  obtain ⟨pre, post, rfl, hpost⟩ := exists_last_split hv
  rw [newId, foldl_numberStep_last hpost, if_pos ⟨rfl, rfl⟩]

theorem newId_eq_of_rank {lt₁ lt₂ : UInt32 → UInt32 → Bool} {entries l₁ l₂ : List UInt32} {v : UInt32}
    (hlt₁ : StrictWeak lt₁) (hlt₂ : StrictWeak lt₂) (hl₁ : l₁.Perm entries) (hs₁ : SortedBy lt₁ l₁)
    (hl₂ : l₂.Perm entries) (hs₂ : SortedBy lt₂ l₂) (hv : v ∈ entries) (hkeep : ¬ (maintain ∧ v = 0))
    (hu₁ : Untied maintain lt₁ entries v) (hu₂ : Untied maintain lt₂ entries v) :
    newId maintain l₁ v = newId maintain l₂ v ↔
      UInt32.ofNat (rankOf maintain lt₁ entries v) = UInt32.ofNat (rankOf maintain lt₂ entries v) := by
  rw [← add_left_inj 1, newId_of_untied hlt₁ hl₁ hs₁ hv hkeep hu₁, newId_of_untied hlt₂ hl₂ hs₂ hv hkeep hu₂]
  simp only [UInt32.ofNat_add, add_right_inj, add_left_inj]

/-- Whatever `std::sort` does with ties, the two outputs are the same exactly when the comparators agree, or no
endpoint ties and each has the same rank under both. -/
theorem sameFile_iff (hfile : file.EndpointsBelow n) (ascending maintain : Bool) (mem₁ mem₂ : ℕ → UInt32) :
    (∀ (stdSort : StdSort UInt32) (ordered₁ mapping₁ ordered₂ mapping₂ : ℕ → UInt32),
      WritesSame stdSort file n ascending maintain (SortState.init file mem₁ ordered₁ mapping₁)
        (SortState.init file mem₂ ordered₂ mapping₂)) ↔
      AgreeOn (ids n) (comesBefore ascending (file.counters mem₁)) (comesBefore ascending (file.counters mem₂)) ∨
        RanksAgree file n ascending maintain mem₁ mem₂ := by
  have hlt₁ := comesBefore_strictWeak ascending (file.counters mem₁)
  have hlt₂ := comesBefore_strictWeak ascending (file.counters mem₂)
  have hmem : ∀ e ∈ file.edges, ∀ v ∈ [e.src, e.dst], v ∈ ids n := by
    intro e he v hv
    obtain ⟨hsrc, hdst⟩ := hfile e he
    rcases List.mem_pair.mp hv with rfl | rfl
    · exact mem_ids_of_lt hsrc
    · exact mem_ids_of_lt hdst
  constructor
  · intro h
    refine or_iff_not_imp_left.mpr fun hne e he v hv hkeep => ?_
    have hnew : ∀ k₁ k₂ : List UInt32, k₁.Perm (ids n) → SortedBy (comesBefore ascending (file.counters mem₁)) k₁ →
        k₂.Perm (ids n) → SortedBy (comesBefore ascending (file.counters mem₂)) k₂ →
        newId maintain k₁ v = newId maintain k₂ v := by
      intro k₁ k₂ hk₁ hs₁ hk₂ hs₂
      obtain ⟨stdSort, h₁, h₂⟩ := exists_stdSort hne hk₁ hs₁ hk₂ hs₂
      have heq := (writesSame_iff hfile mem₁ mem₁ mem₁ mem₁).mp (h stdSort mem₁ mem₁ mem₁ mem₁) e he v hv
      rwa [sortedIds, sortedIds, h₁, h₂] at heq
    obtain ⟨k₁, hk₁, hs₁⟩ := exists_sortedBy hlt₁ (ids n)
    obtain ⟨k₂, hk₂, hs₂⟩ := exists_sortedBy hlt₂ (ids n)
    have hu₁ := untied_of_newId_eq hlt₁ (hmem e he v hv) hkeep fun l hl hs => hnew l k₂ hl hs hk₂ hs₂
    have hu₂ := untied_of_newId_eq hlt₂ (hmem e he v hv) hkeep fun l hl hs => (hnew k₁ l hk₁ hs₁ hl hs).symm
    exact ⟨hu₁, hu₂, (newId_eq_of_rank hlt₁ hlt₂ hk₁ hs₁ hk₂ hs₂ (hmem e he v hv) hkeep hu₁ hu₂).mp
      (hnew k₁ k₂ hk₁ hs₁ hk₂ hs₂)⟩
  · intro h stdSort ordered₁ mapping₁ ordered₂ mapping₂
    rw [writesSame_iff hfile]
    intro e he v hv
    rcases h with hagree | hranks
    · rw [sortedIds, sortedIds, stdSort.congr _ _ _ hagree]
    · by_cases hkeep : maintain ∧ v = 0
      · obtain ⟨rfl, rfl⟩ := hkeep
        have hzero : ∀ mem, (0 : UInt32) ∈ sortedIds stdSort file n ascending mem := fun mem =>
          sortedIds_perm.mem_iff.mpr (hmem e he 0 hv)
        rw [newId_zero (hzero mem₁), newId_zero (hzero mem₂)]
      · obtain ⟨hu₁, hu₂, hrank⟩ := hranks e he v hv hkeep
        exact (newId_eq_of_rank hlt₁ hlt₂ sortedIds_perm (stdSort.sorted _ _ hlt₁) sortedIds_perm
          (stdSort.sorted _ _ hlt₂) (hmem e he v hv) hkeep hu₁ hu₂).mpr hrank

end Runs

/-- One edge from `0` to `1`. -/
def oneEdge : EdgeFile := ⟨[⟨0, 1⟩], by decide⟩

/-- A stray `7` at the vertex that comes first anyway. -/
theorem sameFile_oneEdge : RanksAgree oneEdge 2 false false (fun _ => 0) (fun v => if v = 0 then 7 else 0) ∧
    ∀ (stdSort : StdSort UInt32) (ordered₁ mapping₁ ordered₂ mapping₂ : ℕ → UInt32),
      WritesSame stdSort oneEdge 2 false false (SortState.init oneEdge (fun _ => 0) ordered₁ mapping₁)
        (SortState.init oneEdge (fun v => if v = 0 then 7 else 0) ordered₂ mapping₂) :=
  have hranks : RanksAgree oneEdge 2 false false (fun _ => 0) (fun v => if v = 0 then 7 else 0) := by decide
  ⟨hranks, (sameFile_iff (by decide) false false (fun _ => 0) (fun v => if v = 0 then 7 else 0)).mpr (Or.inr hranks)⟩

/-- A stray `5` at the other vertex: `0` comes first over zeroed memory and second over this. -/
theorem not_sameFile : oneEdge.EndpointsBelow 2 ∧
    ∀ (stdSort : StdSort UInt32) (ordered mapping : ℕ → UInt32),
      ¬ WritesSame stdSort oneEdge 2 false false (SortState.init oneEdge (fun _ => 0) ordered mapping)
        (SortState.init oneEdge (fun v => if v = 1 then 5 else 0) ordered mapping) := by
  refine ⟨by decide, fun stdSort ordered mapping h => ?_⟩
  have hlt₁ := comesBefore_strictWeak false (oneEdge.counters fun _ => 0)
  have hlt₂ := comesBefore_strictWeak false (oneEdge.counters fun v => if v = 1 then 5 else 0)
  have hnew := (writesSame_iff (by decide) ordered mapping ordered mapping).mp h ⟨0, 1⟩ (by decide) 0 (by decide)
  rw [newId_eq_of_rank hlt₁ hlt₂ sortedIds_perm (stdSort.sorted _ _ hlt₁) sortedIds_perm (stdSort.sorted _ _ hlt₂)
    (by decide) (by decide) (by decide) (by decide)] at hnew
  exact absurd hnew (by decide)

end GraphBenchmark
