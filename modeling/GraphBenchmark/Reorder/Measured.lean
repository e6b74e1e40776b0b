import GraphBenchmark.Reorder.Levels

/-! # What the benchmark measures on the two files

The two traversals on a file and on its reordered output: `pr_push` gives the images of the same values, `bfs_push`
the images of the same levels unless a vertex that can come last in the order and `lastId` are in each other's way
(`reorderInvariant_iff`). -/
namespace GraphBenchmark
open Interleaving Levels Words
set_option autoImplicit false

/-! ## The vertex with the last id -/

/-- `std::sort` can put `w` behind all vertices that are numbered by degree. -/
def EdgeFile.CanBeLast (file : EdgeFile) (n : ℕ) (ascending maintain : Bool) (w : UInt32) : Prop :=
  w.toNat < n ∧ (maintain = true → w ≠ 0) ∧ ∀ v : UInt32, v.toNat < n → (maintain = true → v ≠ 0) →
    comesBefore ascending (fun u => UInt32.ofNat (file.outDegree u)) w v = false

section Last
variable {file : EdgeFile} {n : ℕ} {ascending maintain : Bool} {l : List UInt32} {mem mapping : ℕ → UInt32} {v w x : UInt32}

theorem comesBefore_congr {c c' : ℕ → UInt32} (hv : c v.toNat = c' v.toNat) (hw : c w.toNat = c' w.toNat) :
    comesBefore ascending c v w = comesBefore ascending c' v w := by
  unfold comesBefore
  rw [hv, hw]

theorem Numbers.zero (h : Numbers n (newOrder true l) mapping) (hn₀ : 0 < n) : mapping 0 = 0 :=
  h.at_index 0 (by rw [h.length_eq]; exact hn₀)

theorem Numbers.le_index (h : Numbers n (newOrder maintain l) mapping) (hn : n ≤ 2 ^ 32) (hv : v.toNat < n)
    (hm : maintain = true → v ≠ 0) : (if maintain then 1 else 0) ≤ (mapping v.toNat).toNat := by
  cases maintain with
  | false => exact Nat.zero_le _
  | true =>
    have hn₀ : 0 < n := Nat.zero_lt_of_lt hv
    refine Nat.pos_of_ne_zero fun h0 => hm rfl (h.injective hn hv hn₀ ?_)
    exact (UInt32.toNat_inj.mp h0).trans (h.zero hn₀).symm

/-- The vertex with the last id can be last. -/
theorem Numbers.canBeLast (h : Numbers n (newOrder maintain l) mapping) (hn : n ≤ 2 ^ 32)
    (hl : Sorted ascending (file.counters mem) (ids n) l) (hmem : ∀ v < n, mem v = 0) (hx : x.toNat < n)
    (hmx : mapping x.toNat = lastId) : file.CanBeLast n ascending maintain x := by
  have hcount : ∀ {v : UInt32}, v.toNat < n → file.counters mem v.toNat = UInt32.ofNat (file.outDegree v.toNat) := by
    intro v hv
    rw [EdgeFile.counters, hmem _ hv, zero_add]
  obtain ⟨j, hj, hjx, hmj⟩ := h.exists_index hn hx
  have hj32 : j = 2 ^ 32 - 1 := by rw [← hmj, hmx]; rfl
  refine ⟨hx, fun hm hx0 => ?_, fun v hv hmv => ?_⟩
  · subst hm
    have hzero := h.zero (Nat.zero_lt_of_lt hx)
    rw [hx0, show (0 : UInt32).toNat = 0 from rfl, hzero] at hmx
    exact absurd hmx (by decide)
  · obtain ⟨i, hi, hiv, hmi⟩ := h.exists_index hn hv
    have hlo := h.le_index hn hv hmv
    rw [hmi] at hlo
    rw [← comesBefore_congr (hcount hx) (hcount hv)]
    have hlen := h.length_eq
    rcases Nat.lt_or_ge i j with hij | hij
    · rw [← hjx, ← hiv]
      exact newOrder_pairwise maintain hl.2 i j hj hij hlo
    · obtain rfl : i = j := by omega
      rw [← hiv, hjx, ← Bool.not_eq_true, comesBefore_iff]
      exact Nat.lt_irrefl _

/-- And a vertex that can be last gets the last id when `std::sort` puts it behind all it ties with. -/
theorem EdgeFile.CanBeLast.mapping_eq (hw : file.CanBeLast (2 ^ 32) ascending maintain w)
    (h : Numbers (2 ^ 32) (newOrder maintain l) mapping)
    (hl : l.Pairwise fun a b => sortKey ascending (fun u => UInt32.ofNat (file.outDegree u)) a <
      sortKey ascending (fun u => UInt32.ofNat (file.outDegree u)) b ∨ (a = w → b = w)) :
    mapping w.toNat = lastId := by
  obtain ⟨hlt, hm, hlast⟩ := hw
  obtain ⟨i, hi, hiw, hmi⟩ := h.exists_index le_rfl hlt
  have hlen := h.length_eq
  have hlo := h.le_index le_rfl hlt hm
  rw [hmi] at hlo
  by_contra hne
  have hne' : i ≠ 2 ^ 32 - 1 := fun hi' => hne (UInt32.toNat_inj.mp (by rw [hmi, hi']; rfl))
  have hj : 2 ^ 32 - 1 < (newOrder maintain l).length := by omega
  have hmx := (h.eq_getElem_iff le_rfl (h.getElem_lt le_rfl hj) hj).mpr rfl
  have hpair := newOrder_pairwise maintain hl i (2 ^ 32 - 1) hj (by omega) hlo
  rw [hiw] at hpair
  rcases hpair with hkey | heq
  · have hbefore := hlast _ (h.getElem_lt le_rfl hj) fun hmt h0 => ?_
    · rw [← Bool.not_eq_true, comesBefore_iff] at hbefore
      exact hbefore hkey
    · subst hmt
      have hzero := h.zero (by decide)
      rw [h0, show (0 : UInt32).toNat = 0 from rfl, hzero] at hmx
      exact absurd hmx (by decide)
  · rw [heq rfl, hmi] at hmx
    exact hne' hmx

end Last

/-! ## The measurements -/

/-- The two traversals measure the same on `g'` as on `g`, up to the mapping. -/
structure SameMeasure (g g' : Graph) (n : ℕ) (mapping : ℕ → UInt32) : Prop where
  levels : SameLevels g g' n mapping
  finish : ∀ s : UInt32, s.toNat < n → ∀ threads threads' mem mem' bufferMem bufferMem' t t' c c', 0 < threads →
    0 < threads' → Reach (bfsPush g threads .whole) (PushState.init g s mem bufferMem) t → t.pc = .done c →
    Reach (bfsPush g' threads' .whole) (PushState.init g' (mapping s.toNat) mem' bufferMem') t' → t'.pc = .done c' →
    t'.iterations = t.iterations ∧
      ∀ w : UInt32, t'.shared.visited w.toNat = 1 ↔ ∃ v : UInt32, w = mapping v.toNat ∧ t.shared.visited v.toNat = 1
  ranks : ∀ iteration t t', Reach (prPush g iteration) PrState.init t → t.pc = .done →
    Reach (prPush g' iteration) PrState.init t' → t'.pc = .done →
    ∀ v : UInt32, v.toNat < n → t'.ranks.prev (mapping v.toNat).toNat = t.ranks.prev v.toNat

/-- Whatever order `std::sort` returns and however the loader scatters the edges. -/
def ReorderInvariant (file : EdgeFile) (n : ℕ) (symmetric ascending maintain : Bool) : Prop :=
  ∀ mem ordered mapping s, (∀ v < n, mem v = 0) →
    Reach (sortByDegree n file.nbEdges ascending maintain) (SortState.init file mem ordered mapping) s → s.pc = .done →
    ∀ g g', Created file symmetric n g → Created (s.output file) symmetric n g' → SameMeasure g g' n s.mapping

section Measure
variable {file out : EdgeFile} {n : ℕ} {symmetric ascending maintain : Bool} {l : List UInt32} {mapping : ℕ → UInt32}
  {g g' : Graph}

theorem SameLevels.finish (h : SameLevels g g' n mapping) {s : UInt32} (hs : s.toNat < n) {threads threads' : ℕ}
    {mem mem' : ℕ → UInt32} {bufferMem bufferMem' : ℕ → ℕ → UInt32} {t t' : PushState} {c c' : ℕ} (hT : 0 < threads)
    (hT' : 0 < threads') (ht : Reach (bfsPush g threads .whole) (PushState.init g s mem bufferMem) t) (hp : t.pc = .done c)
    (ht' : Reach (bfsPush g' threads' .whole) (PushState.init g' (mapping s.toNat) mem' bufferMem') t')
    (hp' : t'.pc = .done c') : t'.iterations = t.iterations ∧
      ∀ w : UInt32, t'.shared.visited w.toNat = 1 ↔ ∃ v : UInt32, w = mapping v.toNat ∧ t.shared.visited v.toNat = 1 := by
  have hlevels := h s hs
  simp only [pushLevel_iff] at hlevels
  obtain ⟨hbelow, hempty⟩ := bfsPush_done hT ht hp
  obtain ⟨hbelow', hempty'⟩ := bfsPush_done hT' ht' hp'
  constructor
  · refine Nat.le_antisymm (Nat.le_of_not_lt fun hlt => ?_) (Nat.le_of_not_lt fun hlt => ?_)
    · obtain ⟨w, hw⟩ := hbelow' _ hlt
      obtain ⟨v, -, hv⟩ := (hlevels _ w).mp hw
      exact hempty _ le_rfl v hv
    · obtain ⟨v, hv⟩ := hbelow _ hlt
      exact hempty' _ le_rfl _ ((hlevels _ _).mpr ⟨v, rfl, hv⟩)
  · intro w
    simp only [bfsPush_visited hT' ht' hp', bfsPush_visited hT ht hp, reach_iff_distIs, hlevels]
    constructor
    · intro ⟨k, v, hw, hv⟩
      exact ⟨v, hw, k, hv⟩
    · intro ⟨v, hw, k, hv⟩
      exact ⟨k, v, hw, hv⟩

/-- `pr_push` never tells the two graphs apart, so the levels decide. -/
theorem Relabelled.sameMeasure_iff (h : Relabelled file out n l mapping) (hg : g.OutOf file n) (hg' : g'.OutOf out n) :
    SameMeasure g g' n mapping ↔
      ∀ x : UInt32, x.toNat < n → mapping x.toNat = lastId → x = lastId ∨ file.Idle x ∧ file.Idle lastId := by
  rw [← h.levels_iff hg hg']
  refine ⟨SameMeasure.levels, fun hlevels => ⟨hlevels, ?_, ?_⟩⟩
  · intro s hs threads threads' mem mem' bufferMem bufferMem' t t' c c' hT hT' ht hp ht' hp'
    exact hlevels.finish hs hT hT' ht hp ht' hp'
  · intro iteration t t' ht hp ht' hp' v hv
    obtain ⟨hit, hprev, -⟩ := (prInv_of_reach ht).done hp
    obtain ⟨hit', hprev', -⟩ := (prInv_of_reach ht').done hp'
    refine UInt32.toNat_inj.mp ?_
    rw [hprev' _ (hg'.nbNodes.symm ▸ h.numbers.lt h.le hv), hprev _ (hg.nbNodes.symm ▸ hv), hit, hit', h.ranksAt hg hg' _ hv]

variable (hn₀ : 1 ≤ n) (hn : n ≤ 2 ^ 32) (hfile : file.EndpointsBelow n) (hout : ∀ v, file.outDegree v ≤ 2 ^ 32)
  (hin : symmetric = true → ∀ v, file.inDegree v ≤ 2 ^ 32)
include hfile hout hin

theorem Relabelled.outOf (h : Relabelled file out n l mapping) (hg : Created file symmetric n g)
    (hg' : Created out symmetric n g') : g.OutOf file n ∧ g'.OutOf out n :=
  ⟨created_outOf hfile hout hin hg, created_outOf h.endpointsBelow
    (h.degree_le (fun _ => rfl) (fun e he => (hfile e he).1) hout)
    (fun hsym => h.degree_le (fun _ => rfl) (fun e he => (hfile e he).2) (hin hsym)) hg'⟩

include hn₀ hn

theorem ReorderInvariant.last (h : ReorderInvariant file n symmetric ascending maintain) (hn32 : n = 2 ^ 32) {w : UInt32}
    (hw : file.CanBeLast n ascending maintain w) : w = lastId ∨ file.Idle w ∧ file.Idle lastId := by
  have hcounters : file.counters (fun _ => 0) = fun u => UInt32.ofNat (file.outDegree u) := by
    funext u
    exact zero_add _
  obtain ⟨l, hl, hpair⟩ := exists_sorted ascending (file.counters fun _ => 0) (ids n) w
  obtain ⟨s, hs, hp, hnum⟩ := exists_run maintain hn₀ hn (fun _ => 0) (fun _ => 0) hl
  have hrel : Relabelled file (s.output file) n (newOrder maintain l) s.mapping :=
    ⟨hnum, ((sortInv_of_reach hn₀ hn hs).done hp).2, hfile, hn⟩
  obtain ⟨g, hg⟩ := exists_created hfile hout hin
  obtain ⟨g', hg'⟩ : ∃ g', Created (s.output file) symmetric n g' := exists_created hrel.endpointsBelow
    (hrel.degree_le (fun _ => rfl) (fun e he => (hfile e he).1) hout)
    fun hsym => hrel.degree_le (fun _ => rfl) (fun e he => (hfile e he).2) (hin hsym)
  have hsame := h _ _ _ s (fun _ _ => rfl) hs hp g g' hg hg'
  obtain ⟨hgo, hgo'⟩ := hrel.outOf hfile hout hin hg hg'
  subst hn32
  rw [hcounters] at hpair
  exact (hrel.sameMeasure_iff hgo hgo').mp hsame w hw.1 (hw.mapping_eq hnum hpair)

theorem reorderInvariant_of_last
    (h : n = 2 ^ 32 → ∀ w, file.CanBeLast n ascending maintain w → w = lastId ∨ file.Idle w ∧ file.Idle lastId) :
    ReorderInvariant file n symmetric ascending maintain := by
  intro mem ordered mapping s hmem hs hp g g' hg hg'
  obtain ⟨⟨l, hl, hnum⟩, hedges⟩ := (sortInv_of_reach hn₀ hn hs).done hp
  have hrel : Relabelled file (s.output file) n (newOrder maintain l) s.mapping := ⟨hnum, hedges, hfile, hn⟩
  obtain ⟨hgo, hgo'⟩ := hrel.outOf hfile hout hin hg hg'
  refine (hrel.sameMeasure_iff hgo hgo').mpr fun x hx hmx => ?_
  have hlt := hnum.lt hn hx
  rw [hmx, toNat_lastId] at hlt
  exact h (by omega) x (hnum.canBeLast hn hl hmem hx hmx)

/-- The reordering is not seen in the measurements exactly when every vertex that `std::sort` can put last is
`lastId`, or both are idle. With fewer than `2^32` vertices it never is. -/
theorem reorderInvariant_iff : ReorderInvariant file n symmetric ascending maintain ↔
    (n = 2 ^ 32 → ∀ w, file.CanBeLast n ascending maintain w → w = lastId ∨ file.Idle w ∧ file.Idle lastId) :=
  ⟨fun h hn32 _ hw => h.last hn₀ hn hfile hout hin hn32 hw, reorderInvariant_of_last hn₀ hn hfile hout hin⟩

end Measure

theorem reorderInvariant_tied : ReorderInvariant tiedFile 3 true false true :=
  (reorderInvariant_iff (by decide) (by decide) (by decide) (fun _ => List.countP_le_length.trans (by decide))
    fun _ _ => List.countP_le_length.trans (by decide)).mpr fun h => absurd h (by decide)

def tailFile : EdgeFile := ⟨[⟨lastId, 0⟩], by decide⟩

theorem tailFile_canBeLast : tailFile.CanBeLast (2 ^ 32) false false 1 := by
  refine ⟨by decide, nofun, fun v _ _ => ?_⟩
  have hnone : tailFile.outDegree (1 : UInt32).toNat = 0 := by decide
  rw [← Bool.not_eq_true, comesBefore_iff, sortKey, sortKey, if_neg Bool.false_ne_true, if_neg Bool.false_ne_true, hnone]
  exact Nat.not_lt.mpr (Nat.sub_le _ _)

/-- The edge is skipped on the graph and read on the relabelled one. -/
theorem not_reorderInvariant_tail :
    ¬ ∀ (file : EdgeFile) (n : ℕ) (symmetric ascending maintain : Bool), 1 ≤ n → n ≤ 2 ^ 32 → file.EndpointsBelow n →
      (∀ v, file.outDegree v ≤ 2 ^ 32) → (∀ v, file.inDegree v ≤ 2 ^ 32) →
      ReorderInvariant file n symmetric ascending maintain := by
  intro h
  have hdegree : ∀ p : Edge → Bool, tailFile.edges.countP p ≤ 2 ^ 32 := fun p =>
    List.countP_le_length.trans (by decide)
  have hsame := h tailFile (2 ^ 32) true false false (by decide) le_rfl (by decide) (fun _ => hdegree _) fun _ => hdegree _
  rcases hsame.last (by decide) le_rfl (by decide) (fun _ => hdegree _) (fun _ _ => hdegree _) rfl tailFile_canBeLast with
    heq | ⟨-, hidle⟩
  · exact absurd heq (by decide)
  · exact absurd (hidle 0 (List.mem_singleton.mpr rfl)) (by decide)

end GraphBenchmark
