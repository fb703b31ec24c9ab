import Mathlib
import ToneWatch.Proofs.Chunks
import ToneWatch.Proofs.Json.Fields
import ToneWatch.Proofs.Numeric.Whole
import ToneWatch.Proofs.Packet
import ToneWatch.Proofs.Recording

namespace ToneWatch

theorem length_littleEndian (count n : Nat) : (littleEndian count n).length = count := by
  induction count generalizing n with
  | zero => rfl
  | succ count ih => rw [littleEndian, List.length_cons, ih]

theorem ofLittleEndian_littleEndian {count n : Nat} (h : n < 256 ^ count) :
    ofLittleEndian (littleEndian count n) = n := by
  induction count generalizing n with
  | zero =>
    rw [Nat.pow_zero, Nat.lt_one_iff] at h
    rw [littleEndian, ofLittleEndian, h]
  | succ count ih =>
    have hrest : n / 256 < 256 ^ count := by
      rw [Nat.div_lt_iff_lt_mul (by decide)]
      rwa [Nat.pow_succ] at h
    have hlow : (UInt8.ofNat (n % 256)).toNat = n % 256 := by
      rw [UInt8.toNat_ofNat']
      omega
    rw [littleEndian, ofLittleEndian, ih hrest, hlow, Nat.mod_add_div]

theorem length_bytesOfSamples (xs : List Int16) : (bytesOfSamples xs).length = 2 * xs.length := by
  induction xs with
  | nil => rfl
  | cons x xs ih =>
    have hcons : bytesOfSamples (x :: xs) = bytesOfWord x.toUInt16 ++ bytesOfSamples xs := rfl
    rw [hcons, List.length_append, ih]
    simp only [bytesOfWord, List.length_cons, List.length_nil]
    omega

theorem chunks_flatMap {α β : Type} {n : Nat} (hn : 0 < n) {f : α → List β}
    (hf : ∀ a, (f a).length = n) (xs : List α) : chunks n (xs.flatMap f) = xs.map f := by
  induction xs with
  | nil => exact chunks_nil
  | cons x xs ih =>
    obtain ⟨hfirst, hleft⟩ := chunks_of_eq (hf x) hn
    rw [List.flatMap_cons, (chunks_append hn _ _).1, hfirst, hleft, List.nil_append, ih]
    rfl

namespace Wav

theorem number_append {before : List UInt8} {place size : Nat} (h : before.length ≤ place)
    (rest : List UInt8) :
    number (before ++ rest) place size = number rest (place - before.length) size := by
  rw [number, number, List.drop_append, List.drop_eq_nil_of_le h, List.nil_append]

theorem number_littleEndian {size n : Nat} (h : n < 256 ^ size) (rest : List UInt8) :
    number (littleEndian size n ++ rest) 0 size = n := by
  rw [number, List.drop_zero, List.take_left' (length_littleEndian size n),
    ofLittleEndian_littleEndian h]

/-- Mono samples of 16 bits. -/
def monoFormat (rate : UInt32) : Format :=
  { channels := 1, rate, width := 2, bits := 16 }

/-- The body of the format chunk of such samples. -/
def monoChunk (rate : UInt32) : List UInt8 :=
  littleEndian 2 pcmTag ++ littleEndian 2 1 ++ littleEndian 4 rate.toNat
    ++ littleEndian 4 (byteRate rate) ++ littleEndian 2 2 ++ littleEndian 2 16

theorem format?_monoChunk {rate : UInt32} (hrate : rate.toNat < 2 ^ 31) (rest : List UInt8) :
    format? 16 (monoChunk rate ++ rest) = some (monoFormat rate, 16) := by
  have hroom : 16 ≤ (monoChunk rate ++ rest).length := by
    simp only [monoChunk, List.length_append, length_littleEndian]
    omega
  have hbyteRate : byteRate rate < 256 ^ 4 := by
    rw [byteRate]
    omega
  have hfields : number (monoChunk rate ++ rest) 0 2 = pcmTag ∧
      number (monoChunk rate ++ rest) 2 2 = 1 ∧
      number (monoChunk rate ++ rest) 4 4 = rate.toNat ∧
      number (monoChunk rate ++ rest) 8 4 = byteRate rate ∧
      number (monoChunk rate ++ rest) 12 2 = 2 ∧
      number (monoChunk rate ++ rest) 14 2 = 16 := by
    simp only [monoChunk, List.append_assoc, number_append, length_littleEndian, Nat.reduceLeDiff,
      Nat.reduceSub, le_refl, Nat.sub_self]
    exact ⟨number_littleEndian (by decide) _, number_littleEndian (by decide) _,
      number_littleEndian rate.toNat_lt _, number_littleEndian hbyteRate _,
      number_littleEndian (by decide) _, number_littleEndian (by decide) _⟩
  obtain ⟨htag, hchannels, hstated, hbytes, halign, hbits⟩ := hfields
  have hrateBack : UInt32.ofNat rate.toNat = rate := UInt32.ofNat_toNat
  unfold format?
  simp only [htag, hchannels, hstated, hbytes, halign, hbits, byteRate, isComplete, validBits, hrateBack]
  simpa [pcmTag, extensibleTag, floatTag, monoFormat] using hroom

/-- What stands in front of the chunks of a file. -/
def riffHeader (size : Nat) : List UInt8 :=
  tag "RIFF" ++ littleEndian 4 (riffSize size) ++ tag "WAVE"

def chunkHeader (name : String) (size : Nat) : List UInt8 := tag name ++ littleEndian 4 size

theorem encode_eq (samples : List Int16) (rate : UInt32) :
    encode samples rate = riffHeader (2 * samples.length) ++
      (chunkHeader "fmt " 16 ++ (monoChunk rate ++
        (chunkHeader "data" (2 * samples.length) ++ bytesOfSamples samples))) := by
  simp only [encode, riffHeader, chunkHeader, monoChunk, List.append_assoc]

theorem parts_encode (samples : List Int16) (rate : UInt32) :
    (encode samples rate).take 4 = tag "RIFF" ∧ ((encode samples rate).drop 8).take 4 = tag "WAVE" ∧
      (encode samples rate).drop 12 = chunkHeader "fmt " 16 ++ (monoChunk rate ++
        (chunkHeader "data" (2 * samples.length) ++ bytesOfSamples samples)) := by
  have hriff : (tag "RIFF").length = 4 := rfl
  have hwave : (tag "WAVE").length = 4 := rfl
  have hsize : (tag "RIFF" ++ littleEndian 4 (riffSize (2 * samples.length))).length = 8 := by
    rw [List.length_append, length_littleEndian, hriff]
  rw [encode_eq, riffHeader]
  refine ⟨?_, ?_, ?_⟩
  · rw [List.append_assoc, List.append_assoc, List.take_left' hriff]
  · rw [List.append_assoc, List.drop_left' hsize, List.take_left' hwave]
  · rw [List.drop_left' (by rw [List.length_append, hsize, hwave])]

theorem findData_format (format : Option Format) (size : Nat) (hsize : size < 256 ^ 4) (rest : List UInt8) :
    findData format (chunkHeader "fmt " size ++ rest) =
      (format? size rest).bind fun p => findData (some p.1) (rest.drop p.2) := by
  have hback := ofLittleEndian_littleEndian hsize
  have hname : tag "fmt " = [102, 109, 116, 32] := rfl
  rw [chunkHeader, hname]
  simp only [littleEndian, List.cons_append, List.nil_append] at hback ⊢
  rw [findData, hback, hname, if_pos rfl]
  cases format? size rest <;> rfl

theorem findData_data (format : Format) (size : Nat) (hsize : size < 256 ^ 4) (rest : List UInt8) :
    findData (some format) (chunkHeader "data" size ++ rest) = some (format, size, rest) := by
  have hback := ofLittleEndian_littleEndian hsize
  have hname : tag "data" = [100, 97, 116, 97] := rfl
  have hfmt : ([100, 97, 116, 97] : List UInt8) ≠ tag "fmt " := by decide
  have hfact : ([100, 97, 116, 97] : List UInt8) ≠ tag "fact" := by decide
  rw [chunkHeader, hname]
  simp only [littleEndian, List.cons_append, List.nil_append] at hback ⊢
  rw [findData, hback, hname, if_neg hfmt, if_neg hfact, if_pos rfl]
  rfl

theorem number_bytesOfWord (w : UInt16) : number (bytesOfWord w) 0 2 = w.toNat := by
  have hw := w.toNat_lt
  have hnumber : number (bytesOfWord w) 0 2 = (lowByte w).toNat + 256 * (highByte w).toNat := rfl
  rw [hnumber, lowByte, highByte, UInt8.toNat_ofNat', UInt8.toNat_ofNat']
  omega

theorem signed_toUInt16 (x : Int16) : signed 0x8000 x.toUInt16.toNat = x.toInt := by
  have hbits : x.toInt = if 2 * x.toUInt16.toNat < 2 ^ 16 then (x.toUInt16.toNat : ℤ)
      else (x.toUInt16.toNat : ℤ) - (2 ^ 16 : ℕ) := BitVec.toInt_eq_toNat_cond _
  rw [hbits, signed]
  split_ifs <;> omega

theorem sampleValue_word (rate : UInt32) (x : Int16) :
    sampleValue (monoFormat rate) (bytesOfWord x.toUInt16) = some (.finite (x.toInt : ℤ)) := by
  rw [← signed_toUInt16, ← number_bytesOfWord]
  rfl

theorem mix_mono (x : Int16) : mix 1 [.finite (x.toInt : ℤ)] = x := by
  have hlow := x.le_toInt
  have hhigh := x.toInt_lt
  have hsum : Extended.add .single (.finite 0) (.finite (x.toInt : ℤ)) = .finite (x.toInt : ℤ) := by
    have hadd := Extended.add_single_intCast (m := 0) (n := x.toInt) (by omega)
    rwa [Int.cast_zero, zero_add] at hadd
  have hone : Extended.ofNat .single 1 = .finite 1 :=
    Extended.round_single_intCast (n := 1) (by decide)
  have hmean : Extended.div .single (.finite (x.toInt : ℤ)) (.finite 1) = .finite (x.toInt : ℤ) := by
    rw [Extended.div, if_neg one_ne_zero, div_one]
    exact Extended.round_single_intCast (by omega)
  rw [mix, List.foldl_cons, List.foldl_nil, hsum, hone]
  simp only [hmean]
  rw [Extended.toInt_intCast (by omega) (by omega), Int16.ofInt_toInt]

theorem mapM_sampleValue (rate : UInt32) (samples : List Int16) :
    (chunks 2 (bytesOfSamples samples)).mapM (sampleValue (monoFormat rate)) =
      some (samples.map fun x => .finite (x.toInt : ℤ)) := by
  have hchunks : chunks 2 (bytesOfSamples samples) = samples.map fun x => bytesOfWord x.toUInt16 :=
    chunks_flatMap (f := fun x : Int16 => bytesOfWord x.toUInt16) (by decide) (fun _ => rfl) samples
  rw [hchunks]
  exact Json.mapM_map_some fun x _ => sampleValue_word rate x

theorem map_mix_mono (samples : List Int16) :
    (chunks 1 (samples.map fun x => Extended.finite (x.toInt : ℤ))).map (mix 1) = samples := by
  have hchunks : chunks 1 (samples.map fun x => Extended.finite (x.toInt : ℤ)) =
      samples.map fun x => [Extended.finite (x.toInt : ℤ)] := by
    rw [List.map_eq_flatMap]
    exact chunks_flatMap (f := fun x : Int16 => [Extended.finite (x.toInt : ℤ)])
      (by decide) (fun _ => rfl) samples
  rw [hchunks, List.map_map]
  exact (List.map_congr_left fun x _ => mix_mono x).trans (List.map_id samples)

theorem decode?_encode {samples : List Int16} {rate : UInt32}
    (hlen : riffSize (2 * samples.length) < 2 ^ 32) (hrate : rate.toNat < 2 ^ 31) :
    decode? (encode samples rate) = some (samples, rate) := by
  have hsize : 2 * samples.length < 256 ^ 4 := by
    rw [riffSize] at hlen
    omega
  have htotal := length_bytesOfSamples samples
  obtain ⟨hriff, hwave, hchunks⟩ := parts_encode samples rate
  have hbody : ((monoChunk rate ++ (chunkHeader "data" (2 * samples.length) ++
      bytesOfSamples samples)).drop 16) =
      chunkHeader "data" (2 * samples.length) ++ bytesOfSamples samples := rfl
  have hfind : findData none ((encode samples rate).drop 12) =
      some (monoFormat rate, 2 * samples.length, bytesOfSamples samples) := by
    rw [hchunks, findData_format _ _ (by decide), format?_monoChunk hrate]
    exact (congrArg _ hbody).trans (findData_data _ _ hsize _)
  rw [decode?, hriff, hwave]
  simp only [ne_eq, not_true_eq_false, decide_false, Bool.or_self, Bool.false_eq_true, if_false]
  rw [hfind]
  have heven : 2 * samples.length % ((monoFormat rate).width * (monoFormat rate).channels) = 0 :=
    Nat.mul_mod_right 2 _
  have hvalues : (chunks (monoFormat rate).width (bytesOfSamples samples)).mapM
      (sampleValue (monoFormat rate)) = some (samples.map fun x => .finite (x.toInt : ℤ)) :=
    mapM_sampleValue rate samples
  simp only [Option.bind_eq_bind, Option.bind_some]
  rw [if_neg (by simp [heven, htotal]), List.take_of_length_le htotal.le, hvalues, Option.bind_some]
  exact congrArg (fun back => some (back, rate)) (map_mix_mono samples)

/-- A header can be written at the rates whose bytes a second it can state, and at no other. -/
theorem encode?_eq (samples : List Int16) (rate : UInt32) :
    encode? samples rate =
      if 0 < rate.toNat ∧ rate.toNat < 2 ^ 31 then some (encode samples rate) else none := by
  have hzero : rate = 0 ↔ rate.toNat = 0 := by rw [← UInt32.toNat_inj, UInt32.toNat_zero]
  have hwide : 0x100000000 ≤ byteRate rate ↔ 2 ^ 31 ≤ rate.toNat := by
    rw [byteRate]
    omega
  rw [encode?]
  by_cases h : 0 < rate.toNat ∧ rate.toNat < 2 ^ 31
  · rw [if_pos h, if_neg]
    simp only [hzero, hwide, Bool.or_eq_true, decide_eq_true_eq]
    omega
  · rw [if_neg h, if_pos]
    simp only [hzero, hwide, Bool.or_eq_true, decide_eq_true_eq]
    omega

/-- A recording that is saved and loaded again replays as it was, in blocks of any size. -/
theorem replay_of_saved {samples : List Int16} {rate : UInt32}
    (hlen : riffSize (2 * samples.length) < 2 ^ 32) (hpos : 0 < rate.toNat)
    (hrate : rate.toNat < 2 ^ 31) :
    ∃ file, encode? samples rate = some file ∧ decode? file = some (samples, rate) ∧
      ∀ block, ∃ r, Recording.ofWav? (some file) block = some r ∧ r.rate = rate ∧
        r.blocks.flatten = samples ∧
        (∀ b ∈ r.blocks, 0 < b.length ∧ b.length ≤ max block 1) ∧
        ∀ b ∈ r.blocks.dropLast, b.length = max block 1 := by
  have hback := decode?_encode hlen hrate
  have hsaved : encode? samples rate = some (encode samples rate) := by
    rw [encode?_eq, if_pos ⟨hpos, hrate⟩]
  refine ⟨encode samples rate, hsaved, hback, fun block => ?_⟩
  have hload : Recording.ofWav? (some (encode samples rate)) block =
      some (Recording.ofSamples samples rate block) := by
    rw [Recording.ofWav?, Option.bind_eq_bind, Option.bind_some, hback]
    rfl
  have hblock : max (Recording.ofSamples samples rate block).block 1 = max block 1 := by
    rw [Recording.ofSamples, max_assoc, max_self]
  refine ⟨_, hload, rfl, Recording.flatten_blocks _, ?_, ?_⟩
  · rw [← hblock]
    exact Recording.length_of_mem_blocks _
  · rw [← hblock]
    exact Recording.length_of_mem_dropLast_blocks _

theorem replay_of_saved_extremes :
    ∃ file, encode? [-32768, -1, 0, 1, 32767] 11000 = some file ∧
      decode? file = some ([-32768, -1, 0, 1, 32767], 11000) ∧
      ∀ block, ∃ r, Recording.ofWav? (some file) block = some r ∧ r.rate = 11000 ∧
        r.blocks.flatten = [-32768, -1, 0, 1, 32767] ∧
        (∀ b ∈ r.blocks, 0 < b.length ∧ b.length ≤ max block 1) ∧
        ∀ b ∈ r.blocks.dropLast, b.length = max block 1 :=
  replay_of_saved (by decide) (by decide) (by decide)

/-- At a rate of zero not even one sample can be saved. -/
theorem unsaved_at_rate_zero :
    riffSize (2 * [(1 : Int16)].length) < 2 ^ 32 ∧
      ¬ ∃ file, encode? [1] 0 = some file ∧ decode? file = some ([1], 0) := by
  have hnone : encode? [1] 0 = none := rfl
  refine ⟨by decide, ?_⟩
  rintro ⟨file, hsaved, -⟩
  exact Option.some_ne_none file (hsaved.symm.trans hnone)

end Wav
end ToneWatch
