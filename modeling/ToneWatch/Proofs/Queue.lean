import Mathlib

namespace ToneWatch

variable {α : Type}

theorem length_rtake (c : Nat) (xs : List α) : (xs.rtake c).length = min c xs.length := by
  rw [List.rtake, List.length_drop]
  omega

theorem rtake_of_length_le {c : Nat} {xs : List α} (h : xs.length ≤ c) : xs.rtake c = xs := by
  rw [List.rtake, Nat.sub_eq_zero_of_le h, List.drop_zero]

/-- What is lost early would be lost later, too. -/
theorem rtake_rtake_append (c : Nat) (xs ys : List α) :
    (xs.rtake c ++ ys).rtake c = (xs ++ ys).rtake c := by
  rw [List.rtake, List.rtake, List.rtake, ← List.drop_append_of_le_length (Nat.sub_le _ _),
    List.drop_drop, List.length_drop, List.length_append]
  congr 1
  omega

/-- What a full queue loses is the oldest of the newest items. -/
theorem rtake_concat {c : Nat} (hc : 0 < c) (xs : List α) (x : α) :
    (xs ++ [x]).rtake c = (if (xs.rtake c).length = c then (xs.rtake c).drop 1 else xs.rtake c) ++ [x] := by
  obtain ⟨d, rfl⟩ : ∃ d, c = d + 1 := ⟨c - 1, by omega⟩
  rw [List.rtake_concat_succ, length_rtake]
  congr 1
  split
  · rw [List.rtake, List.rtake, List.drop_drop]
    congr 1
    omega
  · rw [List.rtake, List.rtake]
    congr 1
    omega

end ToneWatch
