import Mathlib.Data.List.Basic

/-! # Lists that several sources append to

Each entry carries the source it is from. What is left of such a list for one source is what the source has appended,
in its order; so the list is an interleaving of these. -/
namespace GraphBenchmark.Tagged
set_option autoImplicit false

variable {ι β : Type*} [DecidableEq ι] {i j : ι}

/-- The entries from `i`, in their order. -/
def ofSource (i : ι) (l : List (ι × β)) : List β := (l.filter fun p => p.1 = i).map Prod.snd

theorem ofSource_append (i : ι) (l l' : List (ι × β)) : ofSource i (l ++ l') = ofSource i l ++ ofSource i l' := by
  simp [ofSource]

theorem ofSource_own (i : ι) (l : List β) : ofSource i (l.map (Prod.mk i)) = l := by
  induction l with
  | nil => rfl
  | cons b l ih => simpa [ofSource] using ih

theorem ofSource_other (h : i ≠ j) (l : List β) : ofSource i (l.map (Prod.mk j)) = [] := by
  induction l with
  | nil => rfl
  | cons b l ih => simp [ofSource, h.symm]

/-- What `j` appends is seen of `j` alone. -/
theorem ofSource_append_other (h : i ≠ j) (l : List (ι × β)) (l' : List β) :
    ofSource i (l ++ l'.map (Prod.mk j)) = ofSource i l := by
  rw [ofSource_append, ofSource_other h, List.append_nil]

theorem ofSource_append_own (i : ι) (l : List (ι × β)) (l' : List β) :
    ofSource i (l ++ l'.map (Prod.mk i)) = ofSource i l ++ l' := by
  rw [ofSource_append, ofSource_own]

end GraphBenchmark.Tagged
