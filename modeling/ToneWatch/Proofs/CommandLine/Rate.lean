import Mathlib
import ToneWatch.CommandLine.Listen
import ToneWatch.Proofs.Settings
import ToneWatch.Proofs.Settings.Saving

namespace ToneWatch.CommandLine

open AnalysisSettings (ofJson?)

variable {file : Option (List UInt8)} {s : AnalysisSettings}

theorem analysisAt_eq (hread : readText file >>= readRecord ofJson? = .ok s) (rate : UInt32)
    (otherwise : AnalysisSettings) :
    analysisAt rate otherwise (some file) =
      match s.validate, { s with sampleRate := rate }.validate with
      | .error fault, _ => .error (.refused fault)
      | .ok (), .error fault => .error (.refused fault)
      | .ok (), .ok () => .ok { s with sampleRate := rate } := by
  rw [analysisAt, Option.elim_some, AnalysisSettings.load, loadRecord_of_read hread]
  cases s.validate with
  | error fault => rfl
  | ok _ =>
    change (Except.mapError _ { s with sampleRate := rate }.validate >>= _) = _
    cases { s with sampleRate := rate }.validate <;> rfl

/-- The settings of a file are taken at the rate of a recording exactly if they are acceptable both as they
stand and at that rate, and the first fault is the error. If they are acceptable at that rate, only their
band can be refused, and it is if half of the rate that stands in the file does not reach it. -/
theorem analysisAt_of_file (hread : readText file >>= readRecord ofJson? = .ok s) (rate : UInt32)
    (otherwise : AnalysisSettings) :
    let t : AnalysisSettings := { s with sampleRate := rate }
    (∀ u, analysisAt rate otherwise (some file) = .ok u ↔
      u = t ∧ s.validate = .ok () ∧ t.validate = .ok ()) ∧
    (∀ e, analysisAt rate otherwise (some file) = .error e ↔
      ∃ fault, e = .refused fault ∧
        (s.validate = .error fault ∨ s.validate = .ok () ∧ t.validate = .error fault)) ∧
    (t.validate = .ok () → analysisAt rate otherwise (some file) =
      if s.maxFrequency.toNat ≤ s.sampleRate.toNat / 2 then .ok t
      else .error (.refused
        (if s.sampleRate = 0 then .sampleRate else .band s.minFrequency s.maxFrequency))) := by
  intro t
  rw [analysisAt_eq hread]
  refine ⟨?_, ?_, ?_⟩
  · intro u
    cases s.validate <;> cases { s with sampleRate := rate }.validate <;> simp [t, eq_comm]
  · intro e
    cases s.validate <;> cases { s with sampleRate := rate }.validate <;> simp [eq_comm]
  · intro ht
    rw [AnalysisSettings.validate_of_rate ht, ht]
    split_ifs <;> rfl

theorem read_of_text {text : String} (h : ((Json.parse? text).bind ofJson?) = some s) :
    readText (some text.toUTF8.toList) >>= readRecord ofJson? = .ok s := by
  rw [readText_toUTF8]
  change readRecord ofJson? text = _
  rw [readRecord, h]

/-- A file that raises the upper end of the band and states a rate which allows for that. -/
theorem analysisAt_of_file_stated :
    let text := "\x7b\"sample_rate\": 16000, \"max_frequency\": 6000\x7d"
    let s : AnalysisSettings := { sampleRate := 16000, maxFrequency := 6000 }
    readText (some text.toUTF8.toList) >>= readRecord ofJson? = .ok s ∧
      analysisAt 22050 .forSounds (some (some text.toUTF8.toList)) =
        .ok { s with sampleRate := 22050 } := by
  intro text s
  have hread : readText (some text.toUTF8.toList) >>= readRecord ofJson? = .ok s :=
    read_of_text (by decide +kernel)
  have hs : s.validate = .ok () := by decide +kernel
  have ht : { s with sampleRate := 22050 }.validate = .ok () := by decide +kernel
  exact ⟨hread, ((analysisAt_of_file hread 22050 .forSounds).1 _).mpr ⟨rfl, hs, ht⟩⟩

/-- A file that leaves its rate out is refused for a band that the recording allows for. -/
theorem refused_at_default_rate :
    let text := "\x7b\"max_frequency\": 6000\x7d"
    let s : AnalysisSettings := { maxFrequency := 6000 }
    readText (some text.toUTF8.toList) >>= readRecord ofJson? = .ok s ∧
      { s with sampleRate := 22050 }.validate = .ok () ∧
      analysisAt 22050 .forSounds (some (some text.toUTF8.toList)) =
        .error (.refused (.band 1400 6000)) := by
  intro text s
  have hread : readText (some text.toUTF8.toList) >>= readRecord ofJson? = .ok s :=
    read_of_text (by decide +kernel)
  have hs : s.validate = .error (.band 1400 6000) := by decide +kernel
  have ht : { s with sampleRate := 22050 }.validate = .ok () := by decide +kernel
  have hrefused := analysisAt_eq hread 22050 .forSounds
  rw [hs] at hrefused
  exact ⟨hread, ht, hrefused⟩

end ToneWatch.CommandLine
