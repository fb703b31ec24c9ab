import Mathlib
import ToneWatch.Recording

namespace ToneWatch.Recording

variable {r r' : Recording} {block : List Int16}

theorem pull?_eq_some (h : r.pull? = some (block, r')) :
    r.rest ≠ [] ∧ block = r.rest.take (max r.block 1) ∧
      r' = { r with rest := r.rest.drop (max r.block 1) } := by
  unfold pull? at h
  split at h
  · cases h
  · next x xs hx =>
    cases h
    exact ⟨by rw [hx]; simp, rfl, rfl⟩

theorem pull?_eq_none : r.pull? = none ↔ r.rest = [] := by
  unfold pull?
  cases r.rest <;> simp

/-- The blocks that can be pulled until there are no more. -/
def blocks (r : Recording) : List (List Int16) :=
  match _h : r.pull? with
  | none => []
  | some (block, left) => block :: left.blocks
termination_by r.rest.length
decreasing_by exact length_rest_of_pull? _h

theorem blocks_of_none (h : r.pull? = none) : r.blocks = [] := by
  rw [blocks]
  split <;> simp_all

theorem blocks_of_some (h : r.pull? = some (block, r')) : r.blocks = block :: r'.blocks := by
  rw [blocks]
  split <;> simp_all

theorem blocks_eq_nil : r.blocks = [] ↔ r.rest = [] := by
  cases hp : r.pull? with
  | none => exact iff_of_true (blocks_of_none hp) (pull?_eq_none.mp hp)
  | some p =>
    refine iff_of_false ?_ (pull?_eq_some hp).1
    rw [blocks_of_some hp]
    exact List.cons_ne_nil _ _

theorem flatten_blocks (r : Recording) : r.blocks.flatten = r.rest := by
  induction r using blocks.induct with
  | case1 r hp => rw [blocks_of_none hp, pull?_eq_none.mp hp, List.flatten_nil]
  | case2 r block left hp ih =>
    obtain ⟨-, hblock, hleft⟩ := pull?_eq_some hp
    rw [blocks_of_some hp, List.flatten_cons, ih, hblock, hleft, List.take_append_drop]

theorem length_of_mem_blocks (r : Recording) :
    ∀ b ∈ r.blocks, 0 < b.length ∧ b.length ≤ max r.block 1 := by
  induction r using blocks.induct with
  | case1 r hp => simp [blocks_of_none hp]
  | case2 r block left hp ih =>
    obtain ⟨hne, hblock, hleft⟩ := pull?_eq_some hp
    have hpos := List.length_pos_iff.mpr hne
    rw [blocks_of_some hp]
    intro b hb
    obtain rfl | hb := List.mem_cons.mp hb
    · rw [hblock, List.length_take]
      omega
    · have hrest := ih b hb
      rwa [hleft] at hrest

theorem length_of_mem_dropLast_blocks (r : Recording) :
    ∀ b ∈ r.blocks.dropLast, b.length = max r.block 1 := by
  induction r using blocks.induct with
  | case1 r hp => simp [blocks_of_none hp]
  | case2 r block left hp ih =>
    obtain ⟨-, hblock, hleft⟩ := pull?_eq_some hp
    rw [blocks_of_some hp]
    by_cases hlast : left.blocks = []
    · simp [hlast]
    · rw [List.dropLast_cons_of_ne_nil hlast]
      intro b hb
      obtain rfl | hb := List.mem_cons.mp hb
      · have hmore := List.length_pos_iff.mpr (mt blocks_eq_nil.mpr hlast)
        rw [hleft, List.length_drop] at hmore
        rw [hblock, List.length_take]
        omega
      · have hrest := ih b hb
        rwa [hleft] at hrest

end ToneWatch.Recording
