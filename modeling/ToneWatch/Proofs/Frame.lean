import Mathlib
import ToneWatch.Proofs.Packet
import ToneWatch.Proofs.Json.Fields

namespace ToneWatch.Frame

open Json

/-- Reads a frame from a text. -/
def read? (text : String) : Option Frame :=
  (parse? text).bind ofJson?

/-- A frame that was made from a list or another frame, unpacked, or read from one of some texts. -/
inductive Obtained (texts : Set String) : Frame → Prop
  | silent : Obtained texts silent
  | ofList (frequencies : List UInt16) : Obtained texts (ofList frequencies)
  | push {f g : Frame} {frequency : UInt16} (hf : Obtained texts f) (hg : f.push? frequency = some g) :
      Obtained texts g
  | unpack {packet : List UInt8} {frames : List Frame} {f : Frame}
      (hframes : Packet.unpack packet = .ok frames) (hf : f ∈ frames) : Obtained texts f
  | read {text : String} {f : Frame} (ht : text ∈ texts) (hf : read? text = some f) : Obtained texts f

theorem written_toJson (f : Frame) : f.toJson.Written := by
  have hpeaks : (Json.array (f.slots.map fun p => ofNat p.toNat)).Written :=
    written_map (fun p => written_ofNat p.toNat) f.slots
  exact written_ofMembers (by simp [written_ofNat, hpeaks])

/-- No count is refused. -/
theorem read?_pretty (f : Frame) : read? f.toJson.pretty = some f := by
  have hfields : f.toJson.fields? ["count", "peaks"] =
      some [some (ofNat f.count.toNat), some (.array (f.slots.map fun p => ofNat p.toNat))] :=
    fields?_ofMembers (by decide : ["count", "peaks"].Nodup)
  have hpeaks : list? uint16? (.array (f.slots.map fun p => ofNat p.toNat)) = some f.slots :=
    list?_map uint16?_ofNat f.slots
  rw [read?, parse?_pretty f.written_toJson, Option.bind_some, ofJson?, hfields]
  dsimp only
  rw [uint8?_ofNat, hpeaks]
  rfl

theorem frequencies?_of_le {f : Frame} (h : f.length ≤ maxPeaks) :
    f.frequencies? = some (f.slots.take f.length) :=
  if_neg h.not_gt

theorem length_ofList_le (frequencies : List UInt16) : (ofList frequencies).length ≤ maxPeaks := by
  match frequencies with
  | [] | [_] | [_, _] | _ :: _ :: _ :: _ => simp [ofList, silent, length, maxPeaks]

theorem push?_cases (f : Frame) (frequency : UInt16) :
    maxPeaks ≤ f.length ∧ f.push? frequency = none ∨
      f.length < maxPeaks ∧ ∃ g, f.push? frequency = some g ∧ g.length = f.length + 1 := by
  rw [push?, length, maxPeaks]
  split
  case h_4 h0 h1 h2 =>
    refine .inl ⟨?_, rfl⟩
    by_contra! hlt
    interval_cases hcount : f.count.toNat <;> contradiction
  all_goals
    next hcount => exact .inr ⟨by omega, _, rfl, by rw [hcount]; rfl⟩

theorem length_le_of_unpack {packet : List UInt8} {frames : List Frame}
    (h : Packet.unpack packet = .ok frames) : ∀ f ∈ frames, f.length ≤ maxPeaks := by
  by_cases hwhole : packet.length % Packet.recordSize = 0
  · obtain ⟨gs, rfl⟩ := Packet.exists_of_whole packet hwhole
    rw [Packet.unpack_flatMap] at h
    cases hexcess : Packet.excess? gs with
    | none =>
      rw [hexcess] at h
      rw [← Except.ok.inj h]
      exact Packet.excess?_eq_none_iff.mp hexcess
    | some f => simp [hexcess] at h
  · simp [Packet.unpack, hwhole] at h

theorem unpack_record (f : Frame) :
    Packet.unpack (Packet.record f) =
      if maxPeaks < f.length then .error (.tooManyPeaks f.count) else .ok [f] := by
  have hrecord : Packet.record f = [f].flatMap Packet.record := (List.append_nil _).symm
  rw [hrecord, Packet.unpack_flatMap, Packet.excess?, List.find?_singleton]
  by_cases hf : maxPeaks < f.length <;> simp [hf]

/-- Only what is read can count too much: a text gives every frame, whatever it counts. All frames can
be asked for the frequencies in use and unpacked from their own records, but for these: they have no
frequencies, take no push, and their records are refused. -/
theorem obtained_length_le_iff (texts : Set String) :
    ((∀ f, Obtained texts f → f.length ≤ maxPeaks) ↔
      ∀ text ∈ texts, ∀ f, read? text = some f → f.length ≤ maxPeaks) ∧
    (∀ f : Frame, read? f.toJson.pretty = some f) ∧
    ∀ f : Frame,
      (f.length ≤ maxPeaks → f.frequencies? = some f.frequencies ∧ f.frequencies.length = f.length ∧
        Packet.unpack (Packet.record f) = .ok [f]) ∧
      (maxPeaks < f.length → f.frequencies? = none ∧ (∀ frequency, f.push? frequency = none) ∧
        Packet.unpack (Packet.record f) = .error (.tooManyPeaks f.count)) := by
  refine ⟨⟨fun h text ht f hf => h f (.read ht hf), fun h f hf => ?_⟩, read?_pretty,
    fun f => ⟨fun hle => ?_, fun hgt => ?_⟩⟩
  · induction hf with
    | silent => exact Nat.zero_le _
    | ofList frequencies => exact length_ofList_le frequencies
    | @push f g frequency _ hg ih =>
      obtain ⟨-, hnone⟩ | ⟨hlt, k, hk, hlength⟩ := push?_cases f frequency
      · rw [hnone] at hg
        cases hg
      · obtain rfl : k = g := Option.some.inj (hk.symm.trans hg)
        omega
    | unpack hframes hf => exact length_le_of_unpack hframes _ hf
    | read ht hf => exact h _ ht _ hf
  · have hsome := frequencies?_of_le hle
    rw [frequencies, hsome, unpack_record, if_neg hle.not_gt]
    refine ⟨rfl, ?_, rfl⟩
    rw [Option.getD_some, List.length_take]
    exact min_eq_left hle
  · refine ⟨if_pos hgt, fun frequency => ?_, by rw [unpack_record, if_pos hgt]⟩
    obtain ⟨-, hnone⟩ | ⟨hlt, -⟩ := push?_cases f frequency
    · exact hnone
    · omega

/-- A text with four peaks is enough for a frame without frequencies; without texts the same three peaks
are never counted as four. -/
theorem obtained_length_le_iff_four :
    let wild : Frame := ⟨4, 1, 2, 3⟩
    let full : Frame := ⟨3, 1, 2, 3⟩
    ((¬ ∀ f, Obtained {wild.toJson.pretty} f → f.length ≤ maxPeaks) ∧ wild.frequencies? = none ∧
      wild.push? 9 = none ∧ Packet.unpack (Packet.record wild) = .error (.tooManyPeaks 4)) ∧
    (Obtained ∅ full ∧ full.length ≤ maxPeaks ∧ full.frequencies? = some [1, 2, 3] ∧
      Packet.unpack (Packet.record full) = .ok [full]) := by
  intro wild full
  obtain ⟨hwithin, -, -⟩ := obtained_length_le_iff ∅
  obtain ⟨hwild, hread, hframe⟩ := obtained_length_le_iff {wild.toJson.pretty}
  have hgt : maxPeaks < wild.length := by decide
  have hfull : Obtained ∅ full := .ofList [1, 2, 3]
  have hle : full.length ≤ maxPeaks := hwithin.mpr (by simp) full hfull
  obtain ⟨hnone, hpush, hover⟩ := (hframe wild).2 hgt
  obtain ⟨hfrequencies, -, hunpack⟩ := (hframe full).1 hle
  refine ⟨⟨fun h => ?_, hnone, hpush 9, hover⟩, hfull, hle, hfrequencies, hunpack⟩
  exact hgt.not_ge (hwild.mp h _ rfl wild (hread wild))

end ToneWatch.Frame
