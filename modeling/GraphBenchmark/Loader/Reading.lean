import GraphBenchmark.Model.Reading
import GraphBenchmark.Foundations.Run
import GraphBenchmark.Foundations.Words

/-! # The read loop

While the loop runs, `cursor` is the offset of `fd` and `count` what the file has behind it, however the kernel splits
the reads; the memory holds the file up to `cursor` and what it held before from there on. -/
namespace GraphBenchmark
open Bytes Interleaving Words
set_option autoImplicit false

/-- The loop where no call of `read` fails. -/
def readLoopOk (file : InputFile) : ReadState → ReadResult → Option ReadState :=
  provided (fun _ r => r.isBytes) (readLoop file)

/-- The first `size` bytes of the memory. -/
def ReadState.buffer (s : ReadState) (size : ℕ) : List UInt8 := (List.range size).map s.mem

/-- Every schedule of reads from `s₀` ends with `bytes` in a buffer of `size` bytes; none of them asks `read` to store
behind the buffer, or changes a byte there. -/
structure Reads (file : InputFile) (s₀ : ReadState) (size : ℕ) (bytes : List UInt8) : Prop where
  ends : Ends (readLoopOk file) s₀ fun s => s.pc = .done ∧ s.buffer size = bytes
  asked : ∀ s, Reach (readLoopOk file) s₀ s → s.pc = .loop → s.cursor.toNat + s.count.toNat ≤ size
  kept : ∀ s, Reach (readLoopOk file) s₀ s → ∀ i, size ≤ i → s.mem i = s₀.mem i

section Loop
variable {file : InputFile} {mem : ℕ → UInt8} {s s' : ReadState} {r : ReadResult}

theorem InputFile.toNat_stSize (file : InputFile) : file.stSize.toNat = file.bytes.length := by
  have := file.size_lt
  exact toNat_ofNat64 (by omega)

theorem InputFile.toNat_edgesSize (file : InputFile) : file.edgesSize.toNat = file.bytes.length / 8 * 8 := by
  have hdiv : file.nbEdges.toNat = file.bytes.length / 8 := by
    rw [InputFile.nbEdges, UInt64.toNat_div, file.toNat_stSize]
    rfl
  have hsize := file.size_lt
  rw [InputFile.edgesSize, UInt64.toNat_mul, hdiv, show (8 : UInt64).toNat = 8 from rfl, Nat.mod_eq_of_lt (by omega)]

/-! ## One call -/

structure ReadInv (file : InputFile) (mem : ℕ → UInt8) (s : ReadState) : Prop where
  offset_le : s.offset ≤ file.bytes.length
  cursor : s.pc = .loop → s.cursor.toNat = s.offset
  count : s.pc = .loop → s.count.toNat = file.bytes.length - s.offset
  filled : ∀ i < s.offset, s.mem i = file.bytes.getD i 0
  rest : ∀ i, s.offset ≤ i → s.mem i = mem i
  done : s.pc = .done → s.offset = file.bytes.length
  alive : s.pc ≠ .died

theorem readInv_init (file : InputFile) (mem : ℕ → UInt8) : ReadInv file mem (ReadState.init file mem) where
  offset_le := Nat.zero_le _
  cursor := fun _ => rfl
  count := fun _ => file.toNat_stSize
  filled := fun i hi => absurd hi (Nat.not_lt_zero i)
  rest := fun _ _ => rfl
  done := fun h => by cases h
  alive := fun h => by cases h

theorem ReadInv.fill (h : ReadInv file mem s) (hp : s.pc = .loop) {n : ℕ} (i : ℕ) :
    (s.fill file (.bytes n)).mem i =
      if s.offset ≤ i ∧ i < s.offset + n then file.bytes.getD i 0 else s.mem i := by
  simp only [ReadState.fill, h.cursor hp]
  split
  · rename_i hi
    rw [Nat.add_sub_cancel' hi.1]
  · rfl

/-- What a call that reads `n` bytes does. -/
inductive ReadMove (file : InputFile) (s : ReadState) (n : ℕ) : ReadState → Prop
  | again (hpos : n ≠ 0) (hne : n ≠ s.count.toNat) : ReadMove file s n
      { s.fill file (.bytes n) with cursor := s.cursor + UInt64.ofNat n, count := s.count - UInt64.ofNat n }
  | exit (h : n = s.count.toNat ∨ n = 0) : ReadMove file s n { s.fill file (.bytes n) with pc := .done }

theorem ofNat_eq_zero_iff {n : ℕ} (hn : n < 2 ^ 63) : Int64.ofNat n = 0 ↔ n = 0 := by
  constructor
  · intro h
    have hword : (UInt64.ofNat n).toNat = 0 := congrArg (fun x => x.toUInt64.toNat) h
    rwa [toNat_ofNat64 (by omega)] at hword
  · rintro rfl
    rfl

theorem ofNat_ne_neg_one {n : ℕ} (hn : n < 2 ^ 63) : Int64.ofNat n ≠ -1 := by
  intro h
  have hword : (UInt64.ofNat n).toNat = 2 ^ 64 - 1 := congrArg (fun x => x.toUInt64.toNat) h
  rw [toNat_ofNat64 (by omega)] at hword
  omega

theorem next_move {n : ℕ} (hn : n < 2 ^ 63) : ReadMove file s n ((s.fill file (.bytes n)).next (Int64.ofNat n)) := by
  have hword : (UInt64.ofNat n).toNat = n := toNat_ofNat64 (by omega)
  have hcount : UInt64.ofNat n = s.count ↔ n = s.count.toNat := by
    rw [← UInt64.toNat_inj, hword]
  unfold ReadState.next
  split
  · rename_i htests
    have hne : ¬ UInt64.ofNat n = s.count := htests.1
    rw [if_neg (ofNat_ne_neg_one hn)]
    exact .again (fun hz => htests.2 ((ofNat_eq_zero_iff hn).mpr hz)) fun heq => hne (hcount.mpr heq)
  · rename_i htests
    refine .exit ?_
    rw [not_and_or, not_not, not_not] at htests
    exact htests.imp hcount.mp (ofNat_eq_zero_iff hn).mp

/-- In the loop, a call reads something unless the file is at its end, and no more than is left of it. -/
theorem ReadInv.returns_iff (h : ReadInv file mem s) (hp : s.pc = .loop) {n : ℕ} :
    file.Returns s.offset s.count (.bytes n) ↔
      s.offset + n ≤ file.bytes.length ∧ (n = 0 ↔ s.offset = file.bytes.length) := by
  have hle := h.offset_le
  have hcount := h.count hp
  have hzero : s.count = 0 ↔ s.count.toNat = 0 := UInt64.toNat_inj.symm
  show (if file.bytes.length ≤ s.offset ∨ s.count = 0 then n = 0
    else 1 ≤ n ∧ n ≤ s.count.toNat ∧ s.offset + n ≤ file.bytes.length) ↔ _
  split
  · rename_i hend
    rw [hzero] at hend
    omega
  · rename_i hend
    rw [hzero] at hend
    omega

theorem readLoopOk_move (h : ReadInv file mem s) (hs : readLoopOk file s r = some s') :
    ∃ n, s.pc = .loop ∧ s.offset + n ≤ file.bytes.length ∧ (n = 0 ↔ s.offset = file.bytes.length) ∧
      ReadMove file s n s' := by
  obtain ⟨hok, hs⟩ := provided_eq_some.mp hs
  unfold readLoop at hs
  split at hs
  · rename_i hc
    obtain rfl := Option.some.inj hs
    cases r with
    | error => cases hok
    | bytes n =>
      obtain ⟨hle, hend⟩ := (h.returns_iff hc.1).mp hc.2
      have hsize := file.size_lt
      exact ⟨n, hc.1, hle, hend, next_move (by omega)⟩
  · cases hs

theorem ReadInv.step (h : ReadInv file mem s) (hs : readLoopOk file s r = some s') : ReadInv file mem s' := by
  obtain ⟨n, hp, hle, hend, hmove⟩ := readLoopOk_move h hs
  have hsize := file.size_lt
  have hcursor := h.cursor hp
  have hcount := h.count hp
  have hword : (UInt64.ofNat n).toNat = n := toNat_ofNat64 (by omega)
  have hfilled : ∀ i < s.offset + n, (s.fill file (.bytes n)).mem i = file.bytes.getD i 0 := by
    intro i hi
    rw [h.fill hp]
    split
    · rfl
    · exact h.filled i (by omega)
  have hrest : ∀ i, s.offset + n ≤ i → (s.fill file (.bytes n)).mem i = mem i := by
    intro i hi
    rw [h.fill hp, if_neg (by omega)]
    exact h.rest i (by omega)
  cases hmove with
  | again hpos hne =>
    refine ⟨hle, fun _ => ?_, fun _ => ?_, hfilled, hrest, fun hd => absurd (hp.symm.trans hd) (by simp),
      fun hd => absurd (hp.symm.trans hd) (by simp)⟩
    · show (s.cursor + UInt64.ofNat n).toNat = s.offset + n
      rw [UInt64.toNat_add, hword, hcursor, Nat.mod_eq_of_lt (by omega)]
    · show (s.count - UInt64.ofNat n).toNat = file.bytes.length - (s.offset + n)
      rw [UInt64.toNat_sub_of_le _ _ (UInt64.le_iff_toNat_le.mpr (by omega)), hword]
      omega
  | exit hexit =>
    refine ⟨hle, fun hd => absurd hd (by simp), fun hd => absurd hd (by simp), hfilled, hrest, fun _ => ?_, by simp⟩
    -- `read` returns `0` only when nothing is left
    show s.offset + n = file.bytes.length
    rcases hexit with hexit | hexit
    · omega
    · have := hend.mp hexit
      omega

theorem readInv_reach (h : Reach (readLoopOk file) (ReadState.init file mem) s) : ReadInv file mem s :=
  h.invariant (readInv_init file mem) fun _ _ _ hu ha => hu.step ha

/-! ## All calls -/

theorem readLoopOk_stuck (h : ReadInv file mem s) (hn : ∀ r, readLoopOk file s r = none) : s.pc = .done := by
  cases hp : s.pc with
  | done => rfl
  | died => exact absurd hp h.alive
  | loop =>
    have hle := h.offset_le
    have hreads : ∀ n, file.Returns s.offset s.count (.bytes n) → False := by
      intro n hreturns
      have hstep : readLoopOk file s (.bytes n) = some _ := provided_eq_some.mpr ⟨rfl, if_pos ⟨hp, hreturns⟩⟩
      rw [hn] at hstep
      cases hstep
    by_cases hend : s.offset = file.bytes.length
    · exact absurd ((h.returns_iff hp).mpr ⟨by omega, by omega⟩) (hreads 0)
    · exact absurd ((h.returns_iff hp).mpr ⟨by omega, by omega⟩) (hreads 1)

/-- What the loop has still to do. -/
def ReadState.measure (file : InputFile) (s : ReadState) : ℕ :=
  match s.pc with
  | .loop => file.bytes.length - s.offset + 1
  | _ => 0

theorem readLoopOk_measure (h : ReadInv file mem s) (hs : readLoopOk file s r = some s') :
    s'.measure file < s.measure file := by
  obtain ⟨n, hp, hle, hend, hmove⟩ := readLoopOk_move h hs
  cases hmove with
  | again hpos hne =>
    simp only [ReadState.measure, ReadState.fill, hp]
    omega
  | exit hexit =>
    simp only [ReadState.measure, hp]
    omega

theorem readLoopOk_ends (file : InputFile) (mem : ℕ → UInt8) :
    Ends (readLoopOk file) (ReadState.init file mem) fun s => s.pc = .done :=
  ends_of_invariant Nat.lt_wfRel.wf (ReadState.measure file) (fun _ _ _ hu ha => hu.step ha)
    (fun _ _ _ hu ha => readLoopOk_measure hu ha) (fun _ hu hn => readLoopOk_stuck hu hn) (readInv_init file mem)

theorem buffer_eq_take {size : ℕ} (hsize : size ≤ file.bytes.length)
    (h : ∀ i < file.bytes.length, s.mem i = file.bytes.getD i 0) : s.buffer size = file.bytes.take size := by
  refine List.ext_getElem ?_ fun i hi hi' => ?_
  · rw [ReadState.buffer, List.length_map, List.length_range, List.length_take, Nat.min_eq_left hsize]
  · rw [List.length_take] at hi'
    simp only [ReadState.buffer, List.getElem_map, List.getElem_range, List.getElem_take]
    rw [h i (by omega), List.getD_eq_getElem _ _ (by omega)]

/-- The loop leaves the file in the memory behind `edges`. -/
theorem readLoopOk_ends_filled (file : InputFile) (mem : ℕ → UInt8) :
    Ends (readLoopOk file) (ReadState.init file mem) fun s =>
      s.pc = .done ∧ ∀ i < file.bytes.length, s.mem i = file.bytes.getD i 0 := by
  refine (readLoopOk_ends file mem).mono fun s hr hp => ⟨hp, fun i hi => ?_⟩
  have hinv := readInv_reach hr
  exact hinv.filled i (by rw [hinv.done hp]; exact hi)

theorem reads_of_size {size : ℕ} (hsize : file.bytes.length = size) (mem : ℕ → UInt8) :
    Reads file (ReadState.init file mem) size (file.bytes.take size) := by
  refine ⟨(readLoopOk_ends_filled file mem).mono fun s _ ⟨hp, h⟩ => ⟨hp, buffer_eq_take hsize.ge h⟩,
    fun s hr hp => ?_, fun s hr i hi => ?_⟩
  · have hinv := readInv_reach hr
    have hle := hinv.offset_le
    rw [hinv.cursor hp, hinv.count hp]
    omega
  · have hinv := readInv_reach hr
    have hle := hinv.offset_le
    exact hinv.rest i (by omega)

theorem edgeFile_edge (byteorder : ByteOrder) {i : ℕ} (hi : i < file.bytes.length / 8) :
    (file.edgeFile byteorder).edge i = edgeAt byteorder (fun k => file.bytes.getD k 0) i := by
  rw [EdgeFile.edge, InputFile.edgeFile, List.getD_eq_getElem _ _ (by rwa [List.length_map, List.length_range]),
    List.getElem_map, List.getElem_range]

/-- Where the memory holds the file, it holds its records. -/
theorem edgeAt_of_filled (byteorder : ByteOrder) {i : ℕ} (hi : i < file.bytes.length / 8)
    (h : ∀ k < file.bytes.length, mem k = file.bytes.getD k 0) :
    edgeAt byteorder mem i = (file.edgeFile byteorder).edge i := by
  have hword : ∀ a, a + 4 ≤ file.bytes.length →
      (List.range' a 4).map mem = (List.range' a 4).map fun k => file.bytes.getD k 0 := by
    intro a ha
    refine List.map_congr_left fun k hk => h k ?_
    have hlt := (List.mem_range'_1.mp hk).2
    omega
  rw [edgeFile_edge byteorder hi, edgeAt, edgeAt, hword _ (by omega), hword _ (by omega)]

end Loop

/-- `create_graph` reads every file of whole records into the edges, whatever the sizes of the reads. -/
theorem createGraph_reads (file : InputFile) (mem : ℕ → UInt8) (hwhole : file.bytes.length % 8 = 0) :
    ∃ s₀, createGraphRead file mem = some s₀ ∧ Reads file s₀ file.edgesSize.toNat file.bytes := by
  have hsize := file.toNat_edgesSize
  have hmod : file.stSize % 8 = 0 := by
    refine UInt64.toNat_inj.mp ?_
    rw [UInt64.toNat_mod, file.toNat_stSize]
    exact hwhole
  have hlength : file.bytes.length = file.edgesSize.toNat := by omega
  have hreads := reads_of_size hlength mem
  rw [List.take_of_length_le hlength.le] at hreads
  exact ⟨_, if_pos hmod, hreads⟩

/-- The edge from `0` to `5`. -/
def oneEdgeFile : InputFile := ⟨[0, 0, 0, 0, 5, 0, 0, 0], by decide⟩

theorem createGraph_reads_edge :
    ∃ s₀, createGraphRead oneEdgeFile (fun _ => 42) = some s₀ ∧ Reads oneEdgeFile s₀ 8 [0, 0, 0, 0, 5, 0, 0, 0] :=
  createGraph_reads oneEdgeFile (fun _ => 42) rfl

end GraphBenchmark
