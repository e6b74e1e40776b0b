import GraphBenchmark.Loader.Reading

/-! # The read loop of `sort_by_degree`

The loop asks for the whole file; the buffer has room for its whole records. Without the assertion of `create_graph` the
bytes behind the last whole record go behind the buffer. -/
namespace GraphBenchmark
open Interleaving
set_option autoImplicit false

section Reading
variable {file : InputFile} {mem : ℕ → UInt8}

/-- Whatever the length of the file, the loop ends with its whole records in the buffer. -/
theorem sortByDegreeRead_ends (file : InputFile) (mem : ℕ → UInt8) :
    Ends (readLoopOk file) (sortByDegreeRead file mem) fun s =>
      s.pc = .done ∧ s.buffer file.edgesSize.toNat = file.bytes.take file.edgesSize.toNat := by
  have hsize := file.toNat_edgesSize
  exact (readLoopOk_ends_filled file mem).mono fun s _ ⟨hp, h⟩ => ⟨hp, buffer_eq_take (by omega) h⟩

/-- The first call asks for the whole file. -/
theorem length_le_of_asked (h : ∀ s, Reach (readLoopOk file) (sortByDegreeRead file mem) s → s.pc = .loop →
    s.cursor.toNat + s.count.toNat ≤ file.edgesSize.toNat) : file.bytes.length ≤ file.edgesSize.toNat := by
  have hasked := h _ (Reach.refl _ _) rfl
  change 0 + file.stSize.toNat ≤ _ at hasked
  rwa [Nat.zero_add, file.toNat_stSize] at hasked

/-- `sort_by_degree` reads within its buffer exactly the files of whole records. -/
theorem sortByDegree_reads_iff (file : InputFile) (mem : ℕ → UInt8) :
    Reads file (sortByDegreeRead file mem) file.edgesSize.toNat (file.bytes.take file.edgesSize.toNat) ↔
      file.bytes.length % 8 = 0 := by
  have hsize := file.toNat_edgesSize
  constructor
  · intro h
    have hle := length_le_of_asked h.asked
    omega
  · intro hwhole
    exact reads_of_size (by omega) mem

/-- An edge and one byte more. -/
def oddFile : InputFile := ⟨[0, 0, 0, 0, 5, 0, 0, 0, 1], by decide⟩

theorem not_sortByDegree_reads : ¬ ∀ (file : InputFile) (mem : ℕ → UInt8),
    Reads file (sortByDegreeRead file mem) file.edgesSize.toNat (file.bytes.take file.edgesSize.toNat) := by
  intro h
  have hle := length_le_of_asked (h oddFile fun _ => 0).asked
  revert hle
  decide

end Reading

end GraphBenchmark
