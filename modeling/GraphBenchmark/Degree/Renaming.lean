import GraphBenchmark.Degree.Relabel
import Mathlib.Data.Set.Function

/-! # `degree.py` on a renamed graph

The script looks at which endpoints are equal and, with `-m`, at which is `0`. So a renaming that keeps this changes
nothing in the output, and as the output is the input renamed, a second run writes the same file again. -/
namespace GraphBenchmark
open Bytes Positions
set_option autoImplicit false

/-! ## The dictionary -/

section Dictionary
variable {ρ : ℕ → ℕ} {S : Set ℕ} {args : DegreeArgs}

/-- The entry of a vertex and its neighbours under other names. -/
def renameEntry (ρ : ℕ → ℕ) (x : ℕ × List ℕ) : ℕ × List ℕ := (ρ x.1, x.2.map ρ)

theorem addEdge_rename (hρ : Set.InjOn ρ S) {d : List (ℕ × List ℕ)} {k : ℕ} (hd : ∀ x ∈ d, x.1 ∈ S) (hk : k ∈ S) (v : ℕ) :
    addEdge (d.map (renameEntry ρ)) (ρ k) (ρ v) = (addEdge d k v).map (renameEntry ρ) := by
  induction d with
  | nil => rfl
  | cons x d ih =>
    have hx : x.1 ∈ S := hd x List.mem_cons_self
    have hrest := ih fun y hy => hd y (List.mem_cons_of_mem x hy)
    have hsame : ρ x.1 = ρ k ↔ x.1 = k := hρ.eq_iff hx hk
    by_cases hxk : x.1 = k
    · simp [addEdge, renameEntry, hxk]
    · simp [addEdge, renameEntry, hsame, hxk, hrest]

theorem addEdge_mem {d : List (ℕ × List ℕ)} {k v : ℕ} (hd : ∀ x ∈ d, x.1 ∈ S) (hk : k ∈ S) :
    ∀ x ∈ addEdge d k v, x.1 ∈ S := by
  intro x hx
  have hkeys : x.1 ∈ (addEdge d k v).map Prod.fst := List.mem_map_of_mem hx
  rw [addEdge_keys] at hkeys
  have hold : x.1 ∈ d.map Prod.fst → x.1 ∈ S := by
    intro h
    obtain ⟨y, hy, heq⟩ := List.mem_map.mp h
    exact heq ▸ hd y hy
  split at hkeys
  · exact hold hkeys
  · rcases List.mem_append.mp hkeys with h | h
    · exact hold h
    · exact List.mem_singleton.mp h ▸ hk

theorem groupEdge_rename (args : DegreeArgs) (hρ : Set.InjOn ρ S) {d : List (ℕ × List ℕ)} (hd : ∀ x ∈ d, x.1 ∈ S)
    {e : ℕ × ℕ} (hsrc : e.1 ∈ S) (hdst : e.2 ∈ S) :
    groupEdge args (d.map (renameEntry ρ)) (Prod.map ρ ρ e) = (groupEdge args d e).map (renameEntry ρ) ∧
      ∀ x ∈ groupEdge args d e, x.1 ∈ S := by
  unfold groupEdge
  split
  · exact ⟨addEdge_rename hρ hd hdst e.1, addEdge_mem hd hdst⟩
  · exact ⟨addEdge_rename hρ hd hsrc e.2, addEdge_mem hd hsrc⟩

theorem edgesByNode_rename (hρ : Set.InjOn ρ S) {edges : List (ℕ × ℕ)} (hedges : ∀ e ∈ edges, e.1 ∈ S ∧ e.2 ∈ S) :
    edgesByNode args (edges.map (Prod.map ρ ρ)) = (edgesByNode args edges).map (renameEntry ρ) := by
  have hfold : ∀ d : List (ℕ × List ℕ), (∀ x ∈ d, x.1 ∈ S) →
      (edges.map (Prod.map ρ ρ)).foldl (groupEdge args) (d.map (renameEntry ρ)) =
        (edges.foldl (groupEdge args) d).map (renameEntry ρ) := by
    induction edges with
    | nil => exact fun d _ => rfl
    | cons e edges ih =>
      intro d hd
      obtain ⟨hsrc, hdst⟩ := hedges e List.mem_cons_self
      obtain ⟨hstep, hmem⟩ := groupEdge_rename args hρ hd hsrc hdst
      rw [List.map_cons, List.foldl_cons, List.foldl_cons, hstep]
      exact ih (fun e' he' => hedges e' (List.mem_cons_of_mem e he')) _ hmem
  exact hfold [] nofun

/-- The sort compares lengths only, so that it puts the renamed entries in the same order. -/
theorem sortedKeys_rename (hρ : Set.InjOn ρ S) {edges : List (ℕ × ℕ)} (hedges : ∀ e ∈ edges, e.1 ∈ S ∧ e.2 ∈ S) :
    sortedKeys args (edges.map (Prod.map ρ ρ)) = (sortedKeys args edges).map ρ := by
  have hsort : sortByLen args ((edgesByNode args edges).map (renameEntry ρ)) =
      (sortByLen args (edgesByNode args edges)).map (renameEntry ρ) := by
    unfold sortByLen
    refine (List.map_mergeSort fun x _ y _ => ?_).symm
    simp only [renameEntry, List.length_map]
  rw [sortedKeys, edgesByNode_rename hρ hedges, hsort, List.map_map, sortedKeys, List.map_map]
  rfl

end Dictionary

/-! ## The ids -/

/-- The two runs of the script give out the same ids, under the two names. -/
structure SameIds (ρ : ℕ → ℕ) (S : Set ℕ) (s s' : DegreeState) : Prop where
  mapping : ∀ v ∈ S, s'.mapping (ρ v) = s.mapping v
  count : s'.count = s.count
  output : s'.sortedOutput = s.sortedOutput

section Ids
variable {ρ : ℕ → ℕ} {S : Set ℕ} {args : DegreeArgs} {s s' : DegreeState}

theorem SameIds.assign (h : SameIds ρ S s s') (hρ : Set.InjOn ρ S) {v : ℕ} (hv : v ∈ S) (id : Option ℕ) {c : ℕ} :
    SameIds ρ S { s with mapping := Function.update s.mapping v id, count := c }
      { s' with mapping := Function.update s'.mapping (ρ v) id, count := c } := by
  refine ⟨fun u hu => ?_, rfl, h.output⟩
  by_cases huv : u = v
  · simp [huv]
  · have hne : ρ u ≠ ρ v := fun heq => huv (hρ hu hv heq)
    simp [Function.update_of_ne huv, Function.update_of_ne hne, h.mapping u hu]

theorem SameIds.keyed (args : DegreeArgs) (h : SameIds ρ S s s') (hρ : Set.InjOn ρ S) (keys : List ℕ)
    (hkeys : ∀ v ∈ keys, v ∈ S)
    (hzero : args.maintain = true → ∀ v ∈ keys, ρ v = 0 ↔ v = 0) :
    SameIds ρ S (keys.foldl (numberKeyed args) s) ((keys.map ρ).foldl (numberKeyed args) s') := by
  induction keys generalizing s s' with
  | nil => exact h
  | cons v keys ih =>
    rw [List.map_cons, List.foldl_cons, List.foldl_cons]
    have hv : v ∈ S := hkeys v List.mem_cons_self
    refine ih ?_ (fun u hu => hkeys u (List.mem_cons_of_mem v hu)) fun hm u hu => hzero hm u (List.mem_cons_of_mem v hu)
    unfold numberKeyed
    by_cases hkept : args.maintain = true ∧ v = 0
    · have hρv : ρ v = 0 := (hzero hkept.1 v List.mem_cons_self).mpr hkept.2
      rw [if_pos hkept, if_pos ⟨hkept.1, hρv⟩]
      have hassign := h.assign (c := s.count) hρ hv (some 0)
      rw [hρv, hkept.2] at hassign ⊢
      rw [show s' = { s' with count := s.count } by rw [← h.count]]
      exact hassign
    · have hρv : ¬ (args.maintain = true ∧ ρ v = 0) := fun hc =>
        hkept ⟨hc.1, (hzero hc.1 v List.mem_cons_self).mp hc.2⟩
      rw [if_neg hkept, if_neg hρv, h.count]
      exact h.assign hρ hv (some s.count)

theorem SameIds.numberNew (h : SameIds ρ S s s') (hρ : Set.InjOn ρ S) {v : ℕ} (hv : v ∈ S) :
    SameIds ρ S (numberNew s v) (GraphBenchmark.numberNew s' (ρ v)) := by
  unfold GraphBenchmark.numberNew
  rw [h.mapping v hv, h.count]
  cases s.mapping v with
  | none => exact h.assign hρ hv (some s.count)
  | some i => exact h

theorem SameIds.emitEdge (h : SameIds ρ S s s') (hρ : Set.InjOn ρ S) {e : ℕ × ℕ} (hsrc : e.1 ∈ S) (hdst : e.2 ∈ S) :
    SameIds ρ S (emitEdge s e) (GraphBenchmark.emitEdge s' (Prod.map ρ ρ e)) := by
  have hboth := (h.numberNew hρ hsrc).numberNew hρ hdst
  refine ⟨hboth.mapping, hboth.count, ?_⟩
  simp only [GraphBenchmark.emitEdge, Prod.map_fst, Prod.map_snd, hboth.output, hboth.mapping e.1 hsrc,
    hboth.mapping e.2 hdst]

theorem SameIds.emitted (h : SameIds ρ S s s') (hρ : Set.InjOn ρ S) (edges : List (ℕ × ℕ))
    (hedges : ∀ e ∈ edges, e.1 ∈ S ∧ e.2 ∈ S) :
    SameIds ρ S (edges.foldl GraphBenchmark.emitEdge s) ((edges.map (Prod.map ρ ρ)).foldl GraphBenchmark.emitEdge s') := by
  induction edges generalizing s s' with
  | nil => exact h
  | cons e edges ih =>
    rw [List.map_cons, List.foldl_cons, List.foldl_cons]
    obtain ⟨hsrc, hdst⟩ := hedges e List.mem_cons_self
    exact ih (h.emitEdge hρ hsrc hdst) fun e' he' => hedges e' (List.mem_cons_of_mem e he')

/-- The whole numbering, on an edge list under other names. -/
theorem numberEdges_rename (args : DegreeArgs) {edges : List (ℕ × ℕ)} (hρ : Set.InjOn ρ {v | v ∈ endpoints edges})
    (hzero : args.maintain = true → ∀ v ∈ edges.map (keyOf args), ρ v = 0 ↔ v = 0) :
    SameIds ρ {v | v ∈ endpoints edges} (numberEdges args edges) (numberEdges args (edges.map (Prod.map ρ ρ))) := by
  have hedges : ∀ e ∈ edges, e.1 ∈ {v | v ∈ endpoints edges} ∧ e.2 ∈ {v | v ∈ endpoints edges} := fun e he =>
    ⟨List.mem_append_left _ (List.mem_map_of_mem he), List.mem_append_right _ (List.mem_map_of_mem he)⟩
  have hinit : SameIds ρ {v | v ∈ endpoints edges} (DegreeState.init args) (DegreeState.init args) :=
    ⟨fun _ _ => rfl, rfl, rfl⟩
  have hkeyed := hinit.keyed args hρ (sortedKeys args edges)
    (fun v hv => key_mem_endpoints (mem_sortedKeys.mp hv)) fun hm v hv => hzero hm v (mem_sortedKeys.mp hv)
  rw [← sortedKeys_rename hρ hedges] at hkeyed
  exact hkeyed.emitted hρ edges hedges

end Ids

/-! ## The files -/

section Files
variable {ρ : ℕ → ℕ} {byteorder : ByteOrder} {args : DegreeArgs} {file file' : List UInt8}

theorem readRecords_eq_nil_iff (byteorder : ByteOrder) (file : List UInt8) :
    readRecords byteorder file = [] ↔ file = [] := by
  unfold readRecords
  rw [List.map_eq_nil_iff, List.range_eq_nil]
  cases file with
  | nil => simp
  | cons b file => simp

/-- What the script leaves for a file whose records are the same under other names. -/
theorem degreePy_of_sameIds {s s' : DegreeState} (hs : numberEdges args (readRecords byteorder file) = s)
    (hs' : numberEdges args (readRecords byteorder file') = s') (hnil : file' = [] ↔ file = [])
    (hout : s'.sortedOutput = s.sortedOutput) :
    (degreePy byteorder args file').map DegreeResult.output = (degreePy byteorder args file).map DegreeResult.output := by
  unfold degreePy
  by_cases hfile : file = []
  · rw [if_pos hfile, if_pos (hnil.mpr hfile)]
  · rw [if_neg hfile, if_neg (fun h => hfile (hnil.mp h))]
    simp only [hs, hs', hout]
    cases writeRecords byteorder s.sortedOutput <;> rfl

/-- The output does not depend on the names of the vertices: a file with the same records under other names, where
`-m` still finds vertex `0` where it is keyed, gives the same output file or the same error. -/
theorem degreePy_renamed (hρ : Set.InjOn ρ {v | v ∈ endpoints (readRecords byteorder file)})
    (hzero : args.maintain = true → ∀ v ∈ (readRecords byteorder file).map (keyOf args), ρ v = 0 ↔ v = 0)
    (hfile : readRecords byteorder file' = (readRecords byteorder file).map (Prod.map ρ ρ)) :
    (degreePy byteorder args file').map DegreeResult.output = (degreePy byteorder args file).map DegreeResult.output := by
  have hsame := numberEdges_rename args hρ hzero
  rw [← hfile] at hsame
  refine degreePy_of_sameIds rfl rfl ?_ hsame.output
  rw [← readRecords_eq_nil_iff byteorder, hfile, List.map_eq_nil_iff, readRecords_eq_nil_iff]

/-- Vertices `7` and `9` in the place of `0` and `5`. -/
theorem degreePy_renamed_edge :
    (degreePy .little ⟨false, false, false⟩ [7, 0, 0, 0, 9, 0, 0, 0]).map DegreeResult.output =
      (degreePy .little ⟨false, false, false⟩ [0, 0, 0, 0, 5, 0, 0, 0]).map DegreeResult.output :=
  degreePy_renamed (ρ := fun v => if v = 0 then 7 else 9)
    (fun u hu v hv heq => by
      have hends : ∀ w, w ∈ endpoints (readRecords .little [0, 0, 0, 0, 5, 0, 0, 0]) → w = 0 ∨ w = 5 := by decide
      rcases hends u hu with rfl | rfl <;> rcases hends v hv with rfl | rfl <;> simp_all)
    nofun (by decide)

section Names
variable {edges : List (ℕ × ℕ)} {keep : Bool} {l : List ℕ} {s : DegreeState} {u v : ℕ}

theorem Final.mapping_eq_getD (h : Final args edges keep l s) (hv : v ∈ endpoints edges) :
    s.mapping v = some ((s.mapping v).getD 0) := by
  obtain ⟨i, hi⟩ := Option.ne_none_iff_exists'.mp (h.defined hv)
  rw [hi, Option.getD_some]

theorem Final.getD_inj (h : Final args edges keep l s) (hu : u ∈ endpoints edges) (hv : v ∈ endpoints edges) :
    (s.mapping u).getD 0 = (s.mapping v).getD 0 ↔ u = v := by
  constructor
  · intro heq
    refine h.injective hu ?_
    rw [h.mapping_eq_getD hu, h.mapping_eq_getD hv, heq]
  · exact fun heq => heq ▸ rfl

/-- A keyed vertex `0` is kept by `-m`, and no other one gets its id. -/
theorem Final.getD_eq_zero_iff (h : Final args edges keep l s) (hm : args.maintain = true)
    (hv : v ∈ edges.map (keyOf args)) : (s.mapping v).getD 0 = 0 ↔ v = 0 := by
  have hfirst : firstId args = 1 := if_pos hm
  constructor
  · intro hid
    by_contra hne
    have hmapping := h.mapping_eq_getD (key_mem_endpoints hv)
    rw [hid, h.issued.mapping v, if_neg fun hc => hne hc.2] at hmapping
    have hle := (numbered_lt hmapping).1
    omega
  · rintro rfl
    rw [h.issued.mapping 0, if_pos ⟨h.keep_iff.mpr ⟨hm, hv⟩, rfl⟩]
    rfl

end Names

/-- The new names of the records of a run. -/
theorem newRecords_eq (s : DegreeState) (edges : List (ℕ × ℕ)) :
    newRecords s edges = edges.map (Prod.map (fun v => (s.mapping v).getD 0) fun v => (s.mapping v).getD 0) := rfl

/-- The records of the output are those of the input under their new names. -/
theorem degreePy_output {r : DegreeResult} (h : degreePy byteorder args file = .ok r) :
    r.output.length % 8 = 0 ∧ readRecords byteorder r.output =
      newRecords (numberEdges args (readRecords byteorder file)) (readRecords byteorder file) := by
  rw [degreePy_eq rfl (not_outOfIds_of_ok h).1] at h
  split at h
  · rename_i hids
    rw [← Except.ok.inj h, flatMap_packed_length, Nat.mul_mod_right]
    exact ⟨rfl, readRecords_flatMap hids⟩
  · cases h

/-- A second run writes the file of the first one again, byte for byte, with any of the options: what it reads is the
input under other names. -/
theorem degreePy_idempotent {r : DegreeResult} (h : degreePy byteorder args file = .ok r) :
    (degreePy byteorder args r.output).map DegreeResult.output = .ok r.output := by
  obtain ⟨l, hfinal⟩ := numberEdges_final args (readRecords byteorder file)
  have hread := (degreePy_output h).2
  have hrenamed := numberEdges_rename args (fun u hu v hv heq => (hfinal.getD_inj hu hv).mp heq)
    fun hm v hv => hfinal.getD_eq_zero_iff hm hv
  rw [← newRecords_eq, ← hread] at hrenamed
  have hnil : r.output = [] ↔ file = [] := by
    rw [← readRecords_eq_nil_iff byteorder, hread, newRecords, List.map_eq_nil_iff, readRecords_eq_nil_iff]
  rw [degreePy_of_sameIds rfl rfl hnil hrenamed.output, h]
  rfl

/-- A file that ends inside its second record, with `-m -i`. -/
theorem degreePy_idempotent_short :
    ∃ r, degreePy .little ⟨true, false, true⟩ [0, 0, 0, 0, 5, 0, 0, 0, 5, 0, 0, 0] = .ok r ∧
      (degreePy .little ⟨true, false, true⟩ r.output).map DegreeResult.output = .ok r.output := by
  obtain ⟨l, hfinal⟩ := numberEdges_final ⟨true, false, true⟩ (readRecords .little [0, 0, 0, 0, 5, 0, 0, 0, 5, 0, 0, 0])
  have hids := (newRecords_lt_iff hfinal endpoints_lt).mpr fun hout => absurd (hout.2.2 1 (by decide)) (by decide)
  have hrun := @degreePy_eq .little ⟨true, false, true⟩ [0, 0, 0, 0, 5, 0, 0, 0, 5, 0, 0, 0] _ rfl nofun
  rw [if_pos hids] at hrun
  exact ⟨_, hrun, degreePy_idempotent hrun⟩

end Files

end GraphBenchmark
