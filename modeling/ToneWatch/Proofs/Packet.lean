import Mathlib
import ToneWatch.Packet

namespace ToneWatch

theorem bytesOfWord_wordOfBytes (lo hi : UInt8) : bytesOfWord (wordOfBytes lo hi) = [lo, hi] := by
  have hl := lo.toNat_lt
  have hh := hi.toNat_lt
  have hword : (wordOfBytes lo hi).toNat = lo.toNat + 256 * hi.toNat := by
    rw [wordOfBytes, UInt16.toNat_ofNat', Nat.mod_eq_of_lt (by omega)]
  have hlow : lowByte (wordOfBytes lo hi) = lo := by
    apply UInt8.toNat_inj.mp
    rw [lowByte, hword, UInt8.toNat_ofNat']
    omega
  have hhigh : highByte (wordOfBytes lo hi) = hi := by
    apply UInt8.toNat_inj.mp
    rw [highByte, hword, UInt8.toNat_ofNat']
    omega
  rw [bytesOfWord, hlow, hhigh]

theorem wordOfBytes_bytesOfWord (w : UInt16) : wordOfBytes (lowByte w) (highByte w) = w := by
  have hw := w.toNat_lt
  apply UInt16.toNat_inj.mp
  rw [wordOfBytes, lowByte, highByte, UInt8.toNat_ofNat', UInt8.toNat_ofNat', UInt16.toNat_ofNat']
  omega

namespace Packet

theorem length_record (f : Frame) : (record f).length = recordSize := rfl

theorem length_flatMap_record (frames : List Frame) :
    (frames.flatMap record).length = recordSize * frames.length := by
  induction frames with
  | nil => rfl
  | cons f frames ih =>
    rw [List.flatMap_cons, List.length_append, ih, length_record, List.length_cons, Nat.mul_succ,
      Nat.add_comm]

/-- Bytes in whole records are the records of frames, whose counts may be anything. -/
theorem exists_of_whole : ∀ bytes : List UInt8, bytes.length % recordSize = 0 →
    ∃ frames : List Frame, frames.flatMap record = bytes
  | [], _ => ⟨[], rfl⟩
  | [_], h | [_, _], h | [_, _, _], h | [_, _, _, _], h | [_, _, _, _, _], h
  | [_, _, _, _, _, _], h => absurd h (by simp [recordSize])
  | count :: a :: b :: c :: d :: e :: f :: rest, h => by
    have hrest : rest.length % recordSize = 0 := by
      simp only [List.length_cons, recordSize] at h ⊢
      omega
    obtain ⟨frames, rfl⟩ := exists_of_whole rest hrest
    refine ⟨⟨count, wordOfBytes a b, wordOfBytes c d, wordOfBytes e f⟩ :: frames, ?_⟩
    simp [record, Frame.slots, bytesOfWord_wordOfBytes]

theorem getElem?_flatMap_record (frames : List Frame) (k : Nat) :
    (frames.flatMap record)[recordSize * k]? = frames[k]?.map Frame.count := by
  induction frames generalizing k with
  | nil => rfl
  | cons f frames ih =>
    cases k with
    | zero => rfl
    | succ k =>
      rw [List.flatMap_cons, Nat.mul_succ, Nat.add_comm, ← length_record f,
        List.getElem?_append_right (Nat.le_add_right _ _), Nat.add_sub_cancel_left, length_record, ih,
        List.getElem?_cons_succ]

/-- A record is read as the frame that it was written for, unless it counts too much. -/
theorem records_record_append (f : Frame) (rest : List UInt8) :
    records (record f ++ rest) =
      if Frame.maxPeaks < f.length then .error (.tooManyPeaks f.count) else (f :: ·) <$> records rest := by
  simp only [record, Frame.slots, List.flatMap_cons, List.flatMap_nil, bytesOfWord, List.cons_append,
    List.nil_append, records, wordOfBytes_bytesOfWord]
  rfl

/-- The first frame that counts more peaks than there are slots. -/
def excess? (frames : List Frame) : Option Frame :=
  frames.find? fun f => Frame.maxPeaks < f.length

theorem excess?_eq_none_iff {frames : List Frame} :
    excess? frames = none ↔ ∀ f ∈ frames, f.length ≤ Frame.maxPeaks := by
  simp [excess?]

theorem records_flatMap (frames : List Frame) :
    records (frames.flatMap record) =
      match excess? frames with
      | none => .ok frames
      | some f => .error (.tooManyPeaks f.count) := by
  induction frames with
  | nil => rfl
  | cons f frames ih =>
    rw [List.flatMap_cons, records_record_append, excess?, List.find?_cons]
    by_cases hf : Frame.maxPeaks < f.length
    · rw [if_pos hf, decide_eq_true hf]
    · rw [if_neg hf, decide_eq_false hf, ih, excess?]
      cases frames.find? fun f => Frame.maxPeaks < f.length <;> rfl

theorem unpack_flatMap (frames : List Frame) :
    unpack (frames.flatMap record) =
      match excess? frames with
      | none => .ok frames
      | some f => .error (.tooManyPeaks f.count) := by
  rw [unpack, length_flatMap_record, Nat.mul_mod_right, if_neg (not_not_intro rfl), records_flatMap]

theorem counts_flatMap (frames : List Frame) :
    (∀ k, ∀ count ∈ (frames.flatMap record)[recordSize * k]?, count.toNat ≤ Frame.maxPeaks) ↔
      excess? frames = none := by
  rw [excess?_eq_none_iff, List.forall_mem_iff_getElem]
  constructor
  · intro h k hk
    apply h k
    rw [getElem?_flatMap_record, List.getElem?_eq_getElem hk]
    rfl
  · intro h k count hcount
    rw [getElem?_flatMap_record] at hcount
    obtain ⟨f, hf, rfl⟩ := Option.map_eq_some_iff.mp hcount
    obtain ⟨hk, rfl⟩ := List.getElem?_eq_some_iff.mp hf
    exact h k hk

/-- Whether a count is the first one in a packet that is out of bounds. -/
def FirstExcess (packet : List UInt8) (count : UInt8) : Prop :=
  ∃ k, packet[recordSize * k]? = some count ∧ Frame.maxPeaks < count.toNat ∧
    ∀ j < k, ∀ c ∈ packet[recordSize * j]?, c.toNat ≤ Frame.maxPeaks

theorem firstExcess_flatMap (frames : List Frame) (count : UInt8) :
    FirstExcess (frames.flatMap record) count ↔ (excess? frames).map Frame.count = some count := by
  rw [Option.map_eq_some_iff]
  constructor
  · rintro ⟨k, hk, hcount, hbefore⟩
    rw [getElem?_flatMap_record] at hk
    obtain ⟨f, hf, rfl⟩ := Option.map_eq_some_iff.mp hk
    obtain ⟨hlt, rfl⟩ := List.getElem?_eq_some_iff.mp hf
    refine ⟨frames[k], List.find?_eq_some_iff_getElem.mpr ⟨decide_eq_true hcount, k, hlt, rfl, ?_⟩, rfl⟩
    intro j hj
    have hle : frames[j].length ≤ Frame.maxPeaks := by
      apply hbefore j hj
      rw [getElem?_flatMap_record, List.getElem?_eq_getElem (hj.trans hlt)]
      rfl
    simpa using hle
  · rintro ⟨f, hf, rfl⟩
    obtain ⟨hcount, k, hlt, rfl, hbefore⟩ := List.find?_eq_some_iff_getElem.mp hf
    refine ⟨k, ?_, of_decide_eq_true hcount, ?_⟩
    · rw [getElem?_flatMap_record, List.getElem?_eq_getElem hlt, Option.map_some]
    · intro j hj c hc
      have hle : frames[j].length ≤ Frame.maxPeaks := by simpa using hbefore j hj
      rw [getElem?_flatMap_record, List.getElem?_eq_getElem (hj.trans hlt)] at hc
      rwa [← Option.mem_some_iff.mp hc]

/-- Packing and unpacking undo each other: frames are packed into as many records behind what is there
already and unpacked as they were, slots without use included, and what can be unpacked is packed into
the same bytes again. Nothing else can be unpacked, and the error is settled by the bytes. -/
theorem unpack_append_iff :
    (∀ (bytes : List UInt8) (frames : List Frame), (∀ f ∈ frames, f.length ≤ Frame.maxPeaks) →
      ∃ packet, append bytes frames = bytes ++ packet ∧
        packet.length = recordSize * frames.length ∧ unpack packet = .ok frames) ∧
    ∀ packet : List UInt8,
      ((∃ frames, unpack packet = .ok frames) ↔
        packet.length % recordSize = 0 ∧
          ∀ k, ∀ count ∈ packet[recordSize * k]?, count.toNat ≤ Frame.maxPeaks) ∧
      (∀ frames, unpack packet = .ok frames → ∀ bytes, append bytes frames = bytes ++ packet) ∧
      ∀ e, unpack packet = .error e ↔
        packet.length % recordSize ≠ 0 ∧ e = .truncatedRecord packet.length recordSize ∨
        packet.length % recordSize = 0 ∧ ∃ count, FirstExcess packet count ∧ e = .tooManyPeaks count := by
  constructor
  · intro bytes frames h
    refine ⟨frames.flatMap record, rfl, length_flatMap_record frames, ?_⟩
    rw [unpack_flatMap, excess?_eq_none_iff.mpr h]
  intro packet
  by_cases hwhole : packet.length % recordSize = 0
  · obtain ⟨frames, rfl⟩ := exists_of_whole packet hwhole
    rw [unpack_flatMap, counts_flatMap]
    simp only [hwhole, firstExcess_flatMap, true_and, ne_eq, not_true_eq_false, false_and, false_or]
    cases excess? frames with
    | none =>
      refine ⟨⟨fun _ => rfl, fun _ => ⟨frames, rfl⟩⟩, ?_, by simp⟩
      intro gs hgs bytes
      rw [append, Except.ok.inj hgs]
    | some f => simp [eq_comm]
  · have hunpack : unpack packet = .error (.truncatedRecord packet.length recordSize) := if_pos hwhole
    rw [hunpack]
    simp [hwhole, eq_comm]

/-- A packet behind a byte that was there already: its first frame has a slot without use that is not
zero. Of a wrong length and of two wrong counts, the length and the first count are reported. -/
theorem unpack_append_iff_odd :
    let frames : List Frame := [⟨1, 1500, 7, 0⟩, ⟨3, 4368, 2751, 65535⟩]
    let packet : List UInt8 := [1, 220, 5, 7, 0, 0, 0, 3, 16, 17, 191, 10, 255, 255]
    append [9] frames = 9 :: packet ∧ unpack packet = .ok frames ∧
      unpack (packet ++ [4, 0, 0, 0, 0, 0, 0, 5, 0, 0, 0, 0, 0, 0]) = .error (.tooManyPeaks 4) ∧
      unpack (4 :: packet) = .error (.truncatedRecord 15 7) := by
  intro frames packet
  obtain ⟨hpack, hunpack⟩ := unpack_append_iff
  obtain ⟨bytes, happend, -, hframes⟩ := hpack [9] frames (by decide)
  have hbytes : bytes = packet := List.append_cancel_left (happend.symm.trans (by decide))
  rw [hbytes] at hframes
  refine ⟨(hunpack packet).2.1 frames hframes [9], hframes, ?_, ?_⟩
  · have hbefore : ∀ j < 2, ∀ c ∈ (packet ++ [4, 0, 0, 0, 0, 0, 0, 5, 0, 0, 0, 0, 0, 0])[recordSize * j]?,
        c.toNat ≤ Frame.maxPeaks := by
      decide +kernel
    exact ((hunpack _).2.2 _).mpr (.inr ⟨by decide, 4, ⟨2, by decide, by decide, hbefore⟩, rfl⟩)
  · exact ((hunpack _).2.2 _).mpr (.inl ⟨by decide, rfl⟩)

end Packet

end ToneWatch
