import Mathlib
import ToneWatch.Sound.Library
import ToneWatch.Proofs.Settings.Saving

namespace ToneWatch.Sound

open Json

namespace Sequence

theorem written_toJson (q : Sequence) : q.toJson.Written := by
  have hsamples : (Json.array (q.samples.map fun s => .array (s.map fun p => ofNat p.toNat))).Written :=
    written_map (fun s => written_map (fun p : UInt16 => written_ofNat p.toNat) s) q.samples
  exact written_ofMembers (by simp [written_ofNat, hsamples])

theorem ofJson?_toJson (q : Sequence) : ofJson? q.toJson = some q := by
  have hfields : q.toJson.fields? ["threshold", "deviation", "samples"] =
      some [some (ofNat q.threshold.toNat), some (ofNat q.deviation.toNat),
        some (.array (q.samples.map fun s => .array (s.map fun p => ofNat p.toNat)))] :=
    fields?_ofMembers (by decide : ["threshold", "deviation", "samples"].Nodup)
  have hsamples : list? (fun s => s.list? uint16?)
      (.array (q.samples.map fun s => .array (s.map fun p => ofNat p.toNat))) = some q.samples :=
    list?_map (list?_map uint16?_ofNat) q.samples
  rw [ofJson?, hfields, Option.bind_eq_bind, Option.bind_some]
  dsimp only
  rw [uint32?_ofNat, uint8?_ofNat, hsamples]
  rfl

end Sequence

namespace Entry

theorem written_toJson (e : Entry) : e.toJson.Written :=
  written_ofMembers (by
    simp [written_ofString, written_ofNat, Written.bool, written_map Sequence.written_toJson])

theorem ofJson?_toJson (e : Entry) : ofJson? e.toJson = some e := by
  have hfields : e.toJson.fields? ["name", "max_deviation", "consider_all_frequencies", "sequences"] =
      some [some (ofString e.name), some (ofNat e.sound.maxDeviation.toNat),
        some (.bool e.sound.allPeaks), some (.array (e.sound.sequences.map Sequence.toJson))] :=
    fields?_ofMembers
      (by decide : ["name", "max_deviation", "consider_all_frequencies", "sequences"].Nodup)
  have hsequences := list?_map Sequence.ofJson?_toJson e.sound.sequences
  rw [ofJson?, hfields]
  simp [hsequences]

end Entry

namespace Library

theorem written_toJson (l : Library) : l.toJson.Written :=
  written_ofMembers (by simp [written_map Entry.written_toJson])

theorem ofJson?_toJson (l : Library) : ofJson? l.toJson = some l := by
  have hfields : l.toJson.fields? ["sounds"] = some [some (.array (l.entries.map Entry.toJson))] :=
    fields?_ofMembers (by decide : ["sounds"].Nodup)
  have hentries := list?_map Entry.ofJson?_toJson l.entries
  rw [ofJson?, hfields]
  simp [hentries]

/-- An accepted library that is saved loads as the same library. -/
theorem load_save (l : Library) (h : l.validate = .ok ()) : load (some l.save.toUTF8.toList) = .ok l := by
  rw [load, save, loadRecord_pretty l.written_toJson, ofJson?_toJson]
  dsimp only
  rw [h]

/-- A name with a quote, a backslash, control characters and a character outside the basic plane, the
least and the largest numbers, and a second sample that is as short as it may be. -/
theorem load_save_escaped :
    let entry : Entry := {
      name := "say \"hi\" \\ \n\x01é😀"
      sound := {
        sequences := [⟨[[1000, 0], [65535]], 0, 255⟩, ⟨[[1]], 4294967295, 0⟩]
        maxDeviation := 255
        allPeaks := false } }
    let l : Library := ⟨[entry, { entry with name := "" }]⟩
    l.validate = .ok () ∧ load (some l.save.toUTF8.toList) = .ok l := by
  intro entry l
  have hvalid : l.validate = .ok () := by decide
  exact ⟨hvalid, load_save l hvalid⟩

end Library

end ToneWatch.Sound
