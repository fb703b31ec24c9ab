import Mathlib
import ToneWatch.Bytes

namespace ToneWatch

variable {α : Type}

/-- What is left over behind the last chunk. -/
def leftOver (n : Nat) (xs : List α) : List α := xs.drop (xs.length / n * n)

variable {n : Nat}

theorem chunksAfter_eq (latest : List (List α)) (k : Nat) (xs : List α) :
    chunksAfter n latest k xs =
      latest.reverse ++ (List.range k).map fun i => (xs.drop (i * n)).take n := by
  induction k generalizing latest xs with
  | zero => simp [chunksAfter]
  | succ k ih =>
    have hdrop : ∀ i, (xs.drop n).drop (i * n) = xs.drop ((i + 1) * n) := by
      intro i
      rw [List.drop_drop, Nat.succ_mul, Nat.add_comm]
    simp only [chunksAfter, ih, hdrop, List.range_succ_eq_map, List.reverse_cons, List.map_cons,
      List.map_map, List.append_assoc, List.singleton_append, Nat.zero_mul, List.drop_zero]
    rfl

theorem chunks_eq_map (xs : List α) :
    chunks n xs = (List.range (xs.length / n)).map fun i => (xs.drop (i * n)).take n :=
  chunksAfter_eq [] _ xs

theorem length_leftOver (xs : List α) : (leftOver n xs).length = xs.length % n := by
  rw [leftOver, List.length_drop, Nat.mod_eq_sub_div_mul]

@[simp] theorem chunks_nil : chunks n ([] : List α) = [] := by simp [chunks_eq_map]

@[simp] theorem leftOver_nil : leftOver n ([] : List α) = [] := by simp [leftOver]

theorem chunks_of_lt {xs : List α} (h : xs.length < n) : chunks n xs = [] ∧ leftOver n xs = xs := by
  simp [chunks_eq_map, leftOver, Nat.div_eq_of_lt h]

theorem chunks_of_eq {xs : List α} (h : xs.length = n) (hn : 0 < n) :
    chunks n xs = [xs] ∧ leftOver n xs = [] := by
  simp [chunks_eq_map, leftOver, h, Nat.div_self hn, List.take_of_length_le h.le]

/-- A list that goes on is cut as if it began with what was left over. -/
theorem chunks_append (hn : 0 < n) (xs ys : List α) :
    chunks n (xs ++ ys) = chunks n xs ++ chunks n (leftOver n xs ++ ys) ∧
      leftOver n (xs ++ ys) = leftOver n (leftOver n xs ++ ys) := by
  have hmod := Nat.div_add_mod' xs.length n
  have hq := Nat.div_mul_le_self xs.length n
  have hlen : (xs ++ ys).length = (leftOver n xs ++ ys).length + xs.length / n * n := by
    rw [List.length_append, List.length_append, length_leftOver]
    omega
  have hdiv : (xs ++ ys).length / n = xs.length / n + (leftOver n xs ++ ys).length / n := by
    rw [hlen, Nat.add_mul_div_right _ _ hn, Nat.add_comm]
  have hdrop : ∀ j, (xs ++ ys).drop ((xs.length / n + j) * n) =
      (leftOver n xs ++ ys).drop (j * n) := by
    intro j
    rw [Nat.add_mul, ← List.drop_drop, List.drop_append_of_le_length hq, leftOver]
  constructor
  · rw [chunks_eq_map, hdiv, List.range_add, List.map_append, List.map_map, chunks_eq_map,
      chunks_eq_map]
    congr 1
    · -- a whole chunk of the first list lies in it whole
      apply List.map_congr_left
      intro i hi
      have hle : (i + 1) * n ≤ xs.length / n * n := Nat.mul_le_mul_right n (List.mem_range.mp hi)
      rw [Nat.succ_mul] at hle
      rw [List.drop_append_of_le_length (by omega), List.take_append_of_le_length]
      rw [List.length_drop]
      omega
    · apply List.map_congr_left
      intro j hj
      exact congrArg (List.take n) (hdrop j)
  · rw [leftOver, hdiv, hdrop]
    rfl

end ToneWatch
