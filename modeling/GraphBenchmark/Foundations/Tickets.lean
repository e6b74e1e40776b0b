import GraphBenchmark.Foundations.Scatter

/-! # Numbers drawn from counters of a bounded width

The draws of a run are listed in their order, each with its item and the number it got. A counter of `m` values hands
out the number of earlier draws of the same key modulo `m`, so its numbers are exact as long as no key is drawn for
more than `m` times, and then draws of one key never get the same number. -/
namespace GraphBenchmark.Tickets
open GraphBenchmark.Scatter
set_option autoImplicit false

variable {ι : Type*} {key : ι → ℕ} {f : ℕ → ℕ} {log : List (ι × ℕ)} {i : ι} {m r v : ℕ}

/-- How many of the draws are for the key `v`. -/
def drawsFor (key : ι → ℕ) (log : List (ι × ℕ)) (v : ℕ) : ℕ := log.countP fun p => key p.1 = v

/-- Every draw got `f` of the number of earlier draws for its key. -/
def Numbered (key : ι → ℕ) (f : ℕ → ℕ) (log : List (ι × ℕ)) : Prop :=
  ∀ before p after, log = before ++ p :: after → p.2 = f (drawsFor key before (key p.1))

theorem drawsFor_append (l₁ l₂ : List (ι × ℕ)) (v : ℕ) :
    drawsFor key (l₁ ++ l₂) v = drawsFor key l₁ v + drawsFor key l₂ v := List.countP_append

theorem drawsFor_cons (p : ι × ℕ) (l : List (ι × ℕ)) (v : ℕ) :
    drawsFor key (p :: l) v = drawsFor key l v + if key p.1 = v then 1 else 0 := by
  simp only [drawsFor, List.countP_cons, decide_eq_true_eq]

theorem rank_coe : rank key (log : Multiset (ι × ℕ)) v = drawsFor key log v := by
  rw [rank, ← Multiset.countP_eq_card_filter, Multiset.coe_countP, drawsFor]

/-! ## One more draw -/

theorem Numbered.nil : Numbered key f [] := fun _ _ _ h => absurd h.symm (by simp)

theorem Numbered.snoc (h : Numbered key f log) (hr : r = f (drawsFor key log (key i))) :
    Numbered key f (log ++ [(i, r)]) := by
  intro before p after heq
  rcases List.eq_nil_or_concat after with rfl | ⟨after, q, rfl⟩
  · obtain ⟨rfl, hp⟩ := List.append_inj' heq rfl
    obtain rfl : (i, r) = p := List.head_eq_of_cons_eq hp
    exact hr
  · rw [List.concat_eq_append, ← List.cons_append, ← List.append_assoc] at heq
    exact h before p after (List.append_inj' heq rfl).1

theorem Numbered.of_append {log' : List (ι × ℕ)} (h : Numbered key f (log ++ log')) : Numbered key f log := by
  intro before p after heq
  exact h before p (after ++ log') (by rw [heq, List.append_assoc, List.cons_append])

/-! ## When the numbers are exact -/

theorem drawsFor_lt {before after : List (ι × ℕ)} {p : ι × ℕ} (h : log = before ++ p :: after) :
    drawsFor key before (key p.1) < drawsFor key log (key p.1) := by
  rw [h, drawsFor_append, drawsFor_cons, if_pos rfl]
  omega

/-- The draws for a key include one with each number of earlier draws. -/
theorem exists_draw (hr : r < drawsFor key log v) :
    ∃ before p after, log = before ++ p :: after ∧ key p.1 = v ∧ drawsFor key before v = r := by
  induction log using List.reverseRecOn with
  | nil => exact absurd hr (Nat.not_lt_zero r)
  | append_singleton log p ih =>
    rcases Nat.lt_or_ge r (drawsFor key log v) with hlt | hge
    · obtain ⟨before, q, after, rfl, hq, hdraws⟩ := ih hlt
      exact ⟨before, q, after ++ [p], by rw [List.append_assoc, List.cons_append], hq, hdraws⟩
    · have hnil : drawsFor key ([] : List (ι × ℕ)) v = 0 := rfl
      rw [drawsFor_append, drawsFor_cons, hnil] at hr
      have hp : key p.1 = v := by
        by_contra hne
        rw [if_neg hne] at hr
        omega
      rw [if_pos hp] at hr
      exact ⟨log, p, [], rfl, hp, by omega⟩

theorem Numbered.exact (h : Numbered key (· % m) log) (hm : ∀ v, drawsFor key log v ≤ m) : Numbered key id log := by
  intro before p after heq
  have hlt : drawsFor key before (key p.1) < m := (drawsFor_lt heq).trans_le (hm (key p.1))
  rw [h before p after heq]
  exact Nat.mod_eq_of_lt hlt

/-- The draw after `m` others gets the number of the first one. -/
theorem Numbered.drawsFor_le (h : Numbered key (· % m) log) (hexact : Numbered key id log) (hm : 0 < m) (v : ℕ) :
    drawsFor key log v ≤ m := by
  by_contra hgt
  obtain ⟨before, p, after, heq, rfl, hdraws⟩ := exists_draw (Nat.lt_of_not_le hgt)
  have hwrapped : p.2 = m % m := hdraws ▸ h before p after heq
  have hnumber : p.2 = m := hdraws ▸ hexact before p after heq
  rw [hnumber, Nat.mod_self] at hwrapped
  exact absurd hwrapped hm.ne'

/-! ## Different draws -/

theorem Numbered.ranked (h : Numbered key id log) : Ranked key (log : Multiset (ι × ℕ)) := by
  induction log using List.reverseRecOn with
  | nil => exact Ranked.zero key
  | append_singleton log p ih =>
    have hlog := ih h.of_append
    have hp : p = (p.1, rank key (log : Multiset (ι × ℕ)) (key p.1)) := by
      rw [rank_coe]
      exact Prod.ext rfl (h log p [] rfl)
    rw [← Multiset.coe_add, Multiset.coe_singleton, add_comm, Multiset.singleton_add, hp]
    exact hlog.draw p.1

theorem Numbered.exists_mem (h : Numbered key f log) (hr : r < drawsFor key log v) :
    ∃ i, (i, f r) ∈ log ∧ key i = v := by
  obtain ⟨before, p, after, heq, rfl, hdraws⟩ := exists_draw hr
  have hnumber : p.2 = f r := hdraws ▸ h before p after heq
  refine ⟨p.1, ?_, rfl⟩
  rw [heq, ← hnumber]
  exact List.mem_append_right _ List.mem_cons_self

theorem Numbered.exists_lt (h : Numbered key f log) {p : ι × ℕ} (hp : p ∈ log) :
    ∃ r < drawsFor key log (key p.1), p.2 = f r := by
  obtain ⟨before, after, heq⟩ := List.append_of_mem hp
  exact ⟨_, drawsFor_lt heq, h before p after heq⟩

theorem Numbered.lt (h : Numbered key id log) {p : ι × ℕ} (hp : p ∈ log) : p.2 < drawsFor key log (key p.1) := by
  obtain ⟨r, hr, heq⟩ := h.exists_lt hp
  exact heq ▸ hr

/-- Places that tell the keys and the numbers apart are different for all draws. -/
theorem Numbered.nodup {α : Type*} (h : Numbered key id log) (place : ℕ → ℕ → α)
    (hplace : ∀ u v r q, r < drawsFor key log u → q < drawsFor key log v → place u r = place v q → u = v ∧ r = q) :
    (log.map fun p => place (key p.1) p.2).Nodup := by
  have hslots := h.ranked.slot_nodup (d := drawsFor key log) fun v => rank_coe.le
  rw [Multiset.map_coe, Multiset.coe_nodup] at hslots
  refine List.Nodup.map_on (fun p hp q hq heq => ?_) hslots.of_map
  obtain ⟨hkey, hnumber⟩ := hplace _ _ _ _ (h.lt hp) (h.lt hq) heq
  exact (List.inj_on_of_nodup_map hslots) hp hq (by rw [slot, slot, hkey, hnumber])

end GraphBenchmark.Tickets
