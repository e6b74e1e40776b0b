import GraphBenchmark.Foundations.Ranking
import GraphBenchmark.Reorder.Program

/-! # The out-degrees of the output

`std::sort` may return ties in any order, so that runs on one file write different files. But the out-degree of each id
in the output is settled by the out-degrees of the input. -/
namespace GraphBenchmark
open Interleaving Ranking Words
set_option autoImplicit false

/-- The out-degree of a vertex that takes part in the order. -/
def rankedDegree (maintain : Bool) (degree : ℕ → ℕ) (v : ℕ) : ℕ := if maintain = true ∧ v = 0 then 0 else degree v

/-- The first id of the order. -/
def firstRanked (maintain : Bool) : ℕ := if maintain then 1 else 0

/-- The id at place `i` of the order, from the largest out-degree on. -/
def rankedId (n : ℕ) (ascending maintain : Bool) (i : ℕ) : ℕ := if ascending then n - 1 - i else firstRanked maintain + i

/-- The out-degrees of the output in the order of their places. -/
def EdgeFile.degreesByRank (out : EdgeFile) (n : ℕ) (ascending maintain : Bool) (i : ℕ) : ℕ :=
  if i < n - firstRanked maintain then out.outDegree (rankedId n ascending maintain i) else 0

/-- The place of an id. -/
def placeOf (n : ℕ) (ascending maintain : Bool) (id : ℕ) : ℕ := if ascending then n - 1 - id else id - firstRanked maintain

section Places
variable {n i id : ℕ} {maintain : Bool} (ascending : Bool)

theorem rankedId_placeOf (hfirst : firstRanked maintain ≤ id) (hlt : id < n) :
    placeOf n ascending maintain id < n - firstRanked maintain ∧
      rankedId n ascending maintain (placeOf n ascending maintain id) = id := by
  unfold placeOf rankedId
  cases ascending <;> simp <;> omega

theorem placeOf_rankedId (hi : i < n - firstRanked maintain) :
    firstRanked maintain ≤ rankedId n ascending maintain i ∧ rankedId n ascending maintain i < n ∧
      placeOf n ascending maintain (rankedId n ascending maintain i) = i := by
  unfold placeOf rankedId
  cases ascending <;> simp <;> omega

end Places

section Listed
variable {file out : EdgeFile} {n v : ℕ} {ascending maintain : Bool} {mapping : ℕ → UInt32}

theorem EdgeFile.EndpointsBelow.outDegree_eq_zero (h : file.EndpointsBelow n) (hv : n ≤ v) : file.outDegree v = 0 := by
  refine List.countP_eq_zero.mpr fun e he => ?_
  have hlt := (h e he).1
  rw [decide_eq_true_iff]
  omega

theorem IsDegreeSort.outDegree (h : IsDegreeSort file n ascending maintain mapping out) (hfile : file.EndpointsBelow n)
    (hv : v < n) : out.outDegree (mapping v).toNat = file.outDegree v := by
  rw [EdgeFile.outDegree, EdgeFile.outDegree, h.edges, List.countP_map]
  refine List.countP_congr fun e he => ?_
  rw [Function.comp_apply, decide_eq_true_iff, decide_eq_true_iff]
  exact h.bijOn.injOn.eq_iff (hfile e he).1 hv

theorem IsDegreeSort.endpointsBelow (h : IsDegreeSort file n ascending maintain mapping out)
    (hfile : file.EndpointsBelow n) : out.EndpointsBelow n := by
  intro e he
  rw [h.edges] at he
  obtain ⟨e, hmem, rfl⟩ := List.mem_map.mp he
  exact ⟨h.bijOn.mapsTo (hfile e hmem).1, h.bijOn.mapsTo (hfile e hmem).2⟩

/-- Under `-m` only vertex `0` has the id `0`. -/
theorem IsDegreeSort.firstRanked_le_iff (h : IsDegreeSort file n ascending maintain mapping out) (hv : v < n) :
    firstRanked maintain ≤ (mapping v).toNat ↔ ¬ (maintain = true ∧ v = 0) := by
  unfold firstRanked
  cases hm : maintain with
  | false => simp
  | true =>
    have hzero : (mapping 0).toNat = 0 := by rw [h.zero hm]; rfl
    have hiff : (mapping v).toNat = (mapping 0).toNat ↔ v = 0 := h.bijOn.injOn.eq_iff hv (Nat.zero_lt_of_lt hv)
    rw [hzero] at hiff
    simp only [if_true, true_and]
    omega

theorem IsDegreeSort.degreesByRank_antitone (h : IsDegreeSort file n ascending maintain mapping out) :
    Antitone (out.degreesByRank n ascending maintain) := by
  intro i j hij
  unfold EdgeFile.degreesByRank
  by_cases hj : j < n - firstRanked maintain
  · have hi : i < n - firstRanked maintain := by omega
    rw [if_pos hi, if_pos hj]
    obtain ⟨hfirst, hlt, -⟩ := placeOf_rankedId ascending hj
    obtain ⟨hfirst', hlt', -⟩ := placeOf_rankedId ascending hi
    cases ha : ascending with
    | false =>
      subst ha
      have hmono := h.monotone _ _ hfirst' (show rankedId n false maintain i ≤ rankedId n false maintain j by
        simp [rankedId, hij]) hlt
      simpa using hmono
    | true =>
      subst ha
      have hmono := h.monotone _ _ hfirst (show rankedId n true maintain j ≤ rankedId n true maintain i by
        simp only [rankedId, if_true]
        omega) hlt'
      simpa using hmono
  · rw [if_neg hj]
    exact Nat.zero_le _

theorem EdgeFile.EndpointsBelow.degreesByRank (h : out.EndpointsBelow n) (maintain : Bool) (i : ℕ) :
    out.degreesByRank n false maintain i = out.outDegree (firstRanked maintain + i) := by
  unfold EdgeFile.degreesByRank
  split
  · rfl
  · rename_i hi
    exact (h.outDegree_eq_zero (by omega)).symm

/-- The output lists the vertices by their out-degrees. -/
theorem IsDegreeSort.lists (h : IsDegreeSort file n ascending maintain mapping out) (hfile : file.EndpointsBelow n) :
    Lists (rankedDegree maintain file.outDegree) (out.degreesByRank n ascending maintain)
      fun v => placeOf n ascending maintain (mapping v).toNat := by
  -- a vertex that needs a place is one of the order
  have hranked : ∀ v, 0 < rankedDegree maintain file.outDegree v →
      v < n ∧ firstRanked maintain ≤ (mapping v).toNat ∧ (mapping v).toNat < n ∧
        rankedDegree maintain file.outDegree v = file.outDegree v := by
    intro v hv
    unfold rankedDegree at hv ⊢
    by_cases hkept : maintain = true ∧ v = 0
    · rw [if_pos hkept] at hv
      exact absurd hv (Nat.lt_irrefl 0)
    · rw [if_neg hkept] at hv ⊢
      have hlt : v < n := by
        by_contra hge
        rw [hfile.outDegree_eq_zero (not_lt.mp hge)] at hv
        exact Nat.lt_irrefl 0 hv
      exact ⟨hlt, (h.firstRanked_le_iff hlt).mpr hkept, h.bijOn.mapsTo hlt, rfl⟩
  refine ⟨h.degreesByRank_antitone, ⟨n, fun i hi => ?_⟩, fun u hu v hv heq => ?_, fun v hv => ?_, fun i hi => ?_⟩
  · exact if_neg (by omega)
  · obtain ⟨hu₀, hu₁, hu₂, -⟩ := hranked u hu
    obtain ⟨hv₀, hv₁, hv₂, -⟩ := hranked v hv
    have hplace := congrArg (rankedId n ascending maintain) heq
    rw [(rankedId_placeOf ascending hu₁ hu₂).2, (rankedId_placeOf ascending hv₁ hv₂).2] at hplace
    exact h.bijOn.injOn hu₀ hv₀ hplace
  · obtain ⟨hv₀, hv₁, hv₂, heq⟩ := hranked v hv
    obtain ⟨hlt, hid⟩ := rankedId_placeOf ascending hv₁ hv₂
    rw [EdgeFile.degreesByRank, if_pos hlt, hid, h.outDegree hfile hv₀, heq]
  · unfold EdgeFile.degreesByRank at hi
    split at hi
    · rename_i hlt
      obtain ⟨hfirst, hid, hplace⟩ := placeOf_rankedId ascending hlt
      obtain ⟨v, hv, heq⟩ := h.bijOn.surjOn (Set.mem_Iio.mpr hid)
      have heq' : (mapping v).toNat = rankedId n ascending maintain i := heq
      have hkept := (h.firstRanked_le_iff hv).mp (heq'.symm ▸ hfirst)
      refine ⟨v, ?_, by rw [heq', hplace]⟩
      rw [rankedDegree, if_neg hkept, ← h.outDegree hfile hv, heq']
      exact hi
    · exact absurd hi (Nat.lt_irrefl 0)

end Listed

/-! ## Two runs -/

section Unique
variable {file file' out out' : EdgeFile} {n v : ℕ} {ascending maintain : Bool} {mapping mapping' : ℕ → UInt32}
  {π : ℕ → ℕ}

theorem rankedDegree_rename (hπ : Set.BijOn π (Set.Iio n) (Set.Iio n))
    (hzero : maintain = true → π 0 = 0) (hdegree : ∀ v < n, file'.outDegree (π v) = file.outDegree v) (hv : v < n) :
    rankedDegree maintain file'.outDegree (π v) = rankedDegree maintain file.outDegree v := by
  have hiff : maintain = true ∧ π v = 0 ↔ maintain = true ∧ v = 0 := by
    refine and_congr_right fun hm => ?_
    have heq := hπ.injOn.eq_iff hv (show 0 ∈ Set.Iio n from Nat.zero_lt_of_lt hv)
    rwa [hzero hm] at heq
  unfold rankedDegree
  simp only [hiff, hdegree v hv]

theorem IsDegreeSort.outDegree_unique (h : IsDegreeSort file n ascending maintain mapping out)
    (h' : IsDegreeSort file' n ascending maintain mapping' out') (hfile : file.EndpointsBelow n)
    (hfile' : file'.EndpointsBelow n) (hπ : Set.BijOn π (Set.Iio n) (Set.Iio n)) (hzero : maintain = true → π 0 = 0)
    (hdegree : ∀ v < n, file'.outDegree (π v) = file.outDegree v) (v : ℕ) : out.outDegree v = out'.outDegree v := by
  have hlists := h.lists hfile
  have hlists' := h'.lists hfile'
  have hpos : ∀ {file : EdgeFile} {v}, file.EndpointsBelow n → 0 < rankedDegree maintain file.outDegree v → v < n := by
    intro file v hfile hv
    by_contra hge
    rw [rankedDegree, hfile.outDegree_eq_zero (not_lt.mp hge), ite_self] at hv
    exact Nat.lt_irrefl 0 hv
  have hweight : ∀ v, 0 < rankedDegree maintain file.outDegree v →
      rankedDegree maintain file'.outDegree (π v) = rankedDegree maintain file.outDegree v := fun v hv =>
    rankedDegree_rename hπ hzero hdegree (hpos hfile hv)
  have honto : ∀ u, 0 < rankedDegree maintain file'.outDegree u →
      ∃ v, 0 < rankedDegree maintain file.outDegree v ∧ π v = u := by
    intro u hu
    obtain ⟨v, hv, rfl⟩ := hπ.surjOn (Set.mem_Iio.mpr (hpos hfile' hu))
    exact ⟨v, rankedDegree_rename hπ hzero hdegree hv ▸ hu, rfl⟩
  have hrow := hlists.unique (hlists'.comp (hπ.injOn.mono fun v hv => hpos hfile hv) hweight honto)
  by_cases hlt : v < n
  · by_cases hfirst : firstRanked maintain ≤ v
    · obtain ⟨hplace, hid⟩ := rankedId_placeOf ascending hfirst hlt
      have hat := congrFun hrow (placeOf n ascending maintain v)
      rw [EdgeFile.degreesByRank, EdgeFile.degreesByRank, if_pos hplace, if_pos hplace, hid] at hat
      exact hat
    · -- the kept vertex
      unfold firstRanked at hfirst
      split at hfirst
      · rename_i hm
        obtain rfl : v = 0 := by omega
        have hkept := h.outDegree hfile hlt
        have hkept' := h'.outDegree hfile' hlt
        rw [h.zero hm] at hkept
        rw [h'.zero hm] at hkept'
        have hsame := hdegree 0 hlt
        rw [hzero hm] at hsame
        exact hkept.trans (hsame.symm.trans hkept'.symm)
      · omega
  · rw [(h.endpointsBelow hfile).outDegree_eq_zero (not_lt.mp hlt),
      (h'.endpointsBelow hfile').outDegree_eq_zero (not_lt.mp hlt)]

end Unique

/-- `out` is what some run of the program writes for `file`. -/
structure Reorders (a : ReorderArgs) (m : ReorderMachine) (file out : InputFile) : Prop where
  pos : 0 < a.nbNodes.toNat
  le : a.nbNodes.toNat ≤ 2 ^ 32
  below : (file.edgeFile m.byteorder).EndpointsBelow a.nbNodes.toNat
  degree : ∀ v, (file.edgeFile m.byteorder).outDegree v < 2 ^ 32
  cleared : ∀ v < a.nbNodes.toNat, m.outEdgeOffsets v = 0
  run : ∃ x, Reach (reorder a m file) (.inl (ReadState.init file m.edges)) x ∧ x.written m = some out

section Program
variable {a a' : ReorderArgs} {m m' : ReorderMachine} {file file' out out' : InputFile} {π : ℕ → ℕ}

theorem Reorders.exists_sort (h : Reorders a m file out) : ∃ mapping,
    IsDegreeSort (file.edgeFile m.byteorder) a.nbNodes.toNat a.ascending a.maintain mapping (out.edgeFile m.byteorder) := by
  obtain ⟨x, hx, hwritten⟩ := h.run
  obtain ⟨-, mapping, hrel, hedges⟩ := reorder_written h.pos h.le hx hwritten
  exact ⟨mapping, hrel.isDegreeSort h.pos h.le h.below h.degree h.cleared hedges⟩

theorem exists_reorders (h₀ : 0 < a.nbNodes.toNat) (hn : a.nbNodes.toNat ≤ 2 ^ 32)
    (hbelow : (file.edgeFile m.byteorder).EndpointsBelow a.nbNodes.toNat)
    (hdegree : ∀ v, (file.edgeFile m.byteorder).outDegree v < 2 ^ 32)
    (hcleared : ∀ v < a.nbNodes.toNat, m.outEdgeOffsets v = 0) : ∃ out, Reorders a m file out := by
  obtain ⟨x, out, hx, hwritten⟩ := exists_reorder_written a m file h₀ hn
  exact ⟨out, h₀, hn, hbelow, hdegree, hcleared, x, hx, hwritten⟩

end Program

/-- `./reorder -i in -o out -v 6 -a`. -/
def ascendingArgs : ReorderArgs := ⟨"in", "out", 6, true, false, false⟩

def bigReorderMachine : ReorderMachine := { zeroReorderMachine with byteorder := .big }

def otherEdgeFile : InputFile := ⟨[0, 0, 0, 3, 0, 0, 0, 1], by decide⟩

theorem otherEdge_degrees : ∀ v < 6, (otherEdgeFile.edgeFile .big).outDegree (Equiv.swap 0 3 v) =
    (oneEdgeFile.edgeFile .little).outDegree v := by decide

end GraphBenchmark
