import Mathlib
import ToneWatch.Bytes

namespace ToneWatch

/-- The sample with a number in a stream of bytes, its low byte first. -/
def sampleAt (bytes : List UInt8) (i : Nat) : Int16 :=
  (wordOfBytes (bytes.getD (2 * i) 0) (bytes.getD (2 * i + 1) 0)).toInt16

theorem samplesAfter_eq (latest : List Int16) : ∀ bytes : List UInt8,
    samplesAfter latest bytes = (latest.reverse ++ (samplesOfBytes bytes).1, (samplesOfBytes bytes).2)
  | [] => by simp [samplesOfBytes, samplesAfter]
  | [lo] => by simp [samplesOfBytes, samplesAfter]
  | lo :: hi :: rest => by
    rw [samplesOfBytes, samplesAfter, samplesAfter, samplesAfter_eq _ rest, samplesAfter_eq [_] rest]
    simp

@[simp] theorem samplesOfBytes_singleton (lo : UInt8) : samplesOfBytes [lo] = ([], some lo) := rfl

@[simp] theorem samplesOfBytes_cons (lo hi : UInt8) (rest : List UInt8) :
    samplesOfBytes (lo :: hi :: rest) =
      ((wordOfBytes lo hi).toInt16 :: (samplesOfBytes rest).1, (samplesOfBytes rest).2) :=
  samplesAfter_eq [_] rest

theorem samplesOfBytes_eq : ∀ bytes : List UInt8,
    (samplesOfBytes bytes).1 = (List.range (bytes.length / 2)).map (sampleAt bytes)
  | [] => rfl
  | [lo] => by simp
  | lo :: hi :: rest => by
    have hlen : (lo :: hi :: rest).length / 2 = rest.length / 2 + 1 := by
      simp only [List.length_cons]
      omega
    rw [samplesOfBytes_cons, samplesOfBytes_eq rest, hlen, List.range_succ_eq_map, List.map_cons,
      List.map_map]
    rfl

theorem length_samplesOfBytes (bytes : List UInt8) :
    (samplesOfBytes bytes).1.length = bytes.length / 2 := by
  rw [samplesOfBytes_eq, List.length_map, List.length_range]

/-- A stream goes on from the byte that its beginning leaves over. -/
theorem samplesOfBytes_append (cs : List UInt8) : ∀ bs : List UInt8,
    samplesOfBytes (bs ++ cs) =
      ((samplesOfBytes bs).1 ++ (samplesOfBytes ((samplesOfBytes bs).2.toList ++ cs)).1,
        (samplesOfBytes ((samplesOfBytes bs).2.toList ++ cs)).2)
  | [] => rfl
  | [lo] => rfl
  | lo :: hi :: rest => by
    rw [List.cons_append, List.cons_append, samplesOfBytes_cons, samplesOfBytes_cons,
      samplesOfBytes_append cs rest]
    rfl

theorem samplesOfBytes_left : ∀ bytes : List UInt8, bytes.length % 2 = 0 →
    (samplesOfBytes bytes).2 = none
  | [], _ => rfl
  | [_], h => by simp at h
  | lo :: hi :: rest, h => by
    have hrest : rest.length % 2 = 0 := by
      simp only [List.length_cons] at h
      omega
    rw [samplesOfBytes_cons, samplesOfBytes_left rest hrest]

theorem samplesOfBytes_split (bytes : List UInt8) (k : Nat) :
    let block := (samplesOfBytes (bytes.take k)).1
    samplesOfBytes bytes =
      (block ++ (samplesOfBytes (bytes.drop (2 * block.length))).1,
        (samplesOfBytes (bytes.drop (2 * block.length))).2) := by
  intro block
  have hb : block.length = (bytes.take k).length / 2 := length_samplesOfBytes _
  have hlen : ((bytes.take k).take (2 * block.length)).length = 2 * block.length := by
    rw [List.length_take]
    omega
  have hrest : (samplesOfBytes ((bytes.take k).drop (2 * block.length))).1 = [] := by
    rw [← List.length_eq_zero_iff, length_samplesOfBytes, List.length_drop]
    omega
  have hleft := samplesOfBytes_left ((bytes.take k).take (2 * block.length)) (by omega)
  have hblock : (samplesOfBytes ((bytes.take k).take (2 * block.length))).1 = block := by
    have happ := samplesOfBytes_append ((bytes.take k).drop (2 * block.length))
      ((bytes.take k).take (2 * block.length))
    rw [List.take_append_drop, hleft, Option.toList_none, List.nil_append, hrest,
      List.append_nil] at happ
    exact (congrArg Prod.fst happ).symm
  have hle : 2 * block.length ≤ k := by
    rw [List.length_take] at hb
    omega
  rw [List.take_take, Nat.min_eq_left hle] at hleft hblock
  have happ := samplesOfBytes_append (bytes.drop (2 * block.length)) (bytes.take (2 * block.length))
  rwa [List.take_append_drop, hleft, hblock, Option.toList_none, List.nil_append] at happ

end ToneWatch
